import QkdEkm.Ekm.Effects
import QkdEkm.Lib.Machine

/-!
# Permanence — a KEK that answered is there for good

The one write of a KEK row stands behind a lookup that found none, in
the same atomic handler; so no step, however it fails, changes a row
that exists.
-/

namespace QkdEkm.Ekm

open QkdEkm.Common QkdEkm.Lib

/-- A `:wrap` of `plaintext` under `o` with additional data `aad`. -/
def Request.Wraps (r : Request) (o : String) (plaintext aad : Bytes) : Prop :=
  ∃ keyIdOp body fields, r = .keyOp keyIdOp body ∧
    parseKeyOp keyIdOp body = .ok (.wrap o fields aad) ∧
    b64dField (fields.get "plaintext") = .ok plaintext

/-- An `:unwrap` of `blob` under `o` with additional data `aad`. -/
def Request.Unwraps (r : Request) (o : String) (blob aad : Bytes) : Prop :=
  ∃ keyIdOp body fields, r = .keyOp keyIdOp body ∧
    parseKeyOp keyIdOp body = .ok (.unwrap o fields aad) ∧
    b64dField (fields.get "wrappedBlob") = .ok blob

/-- Any `:wrap` of `o`, well formed or not. -/
def Request.WrapOf (r : Request) (o : String) : Prop :=
  ∃ keyIdOp body, r = .keyOp keyIdOp body ∧ rpartition keyIdOp ':' = (o, "wrap")

theorem parseKeyOp_wrap {keyIdOp o o' : String} {body : Body} {fields : Fields} {aad : Bytes}
    (h : parseKeyOp keyIdOp body = .ok (.wrap o fields aad))
    (hp : rpartition keyIdOp ':' = (o', "wrap")) : o = o' := by
  unfold parseKeyOp at h
  rw [hp] at h
  dsimp only at h
  split at h
  · cases h
  · obtain ⟨fields', _, h⟩ := except_bind_eq_ok.mp h
    obtain ⟨aad', _, h⟩ := except_bind_eq_ok.mp h
    cases h
    rfl

section

variable {aead : Aead} {cfg : Config} {p : Process}

/-! ## One step -/

/-- A first use leaves the rows of other objects alone. -/
theorem FirstUse.kekRow {o o' : String} {fates : List Fate} {nonces : List Nonce}
    {r : Except Stop Bytes}
    {store : Store} {pool : KeyPool} (h : FirstUse aead cfg o p fates nonces r store pool)
    (hne : o ≠ o') : store.kekRow o' = p.store.kekRow o' := by
  cases h with
  | refused _ => rfl
  | lost _ hk _ | rebound _ hk _ _ => exact kekRow_putKek_of_ne (hk.object ▸ hne)
  | bound _ hk hb _ =>
    unfold Store.kekRow
    rw [(bind_ok hb).1]
    exact kekRow_putKek_of_ne (hk.object ▸ hne)

/-- A first use that returns left the row of the material it returns. -/
theorem FirstUse.kek {o : String} {fates : List Fate} {nonces : List Nonce} {kek : Bytes}
    {store : Store}
    {pool : KeyPool} (h : FirstUse aead cfg o p fates nonces (.ok kek) store pool) :
    ∃ row, store.kekRow o = some row ∧ row.material aead cfg.localKey = some kek := by
  have hput : ∀ {key row}, KekOf aead cfg o key nonces row →
      (p.store.putKek row).kekRow o = some row :=
    fun hk => hk.object ▸ kekRow_putKek_self
  cases h with
  | rebound _ hk _ hr =>
    obtain ⟨⟨⟩⟩ | ⟨⟨⟩⟩ := hr
    exact ⟨_, hput hk, hk.material⟩
  | bound _ hk hb hr =>
    obtain ⟨⟨⟩⟩ | ⟨⟨⟩⟩ := hr
    refine ⟨_, ?_, hk.material⟩
    unfold Store.kekRow
    rw [(bind_ok hb).1]
    exact hput hk

/-- A wrap leaves a row that exists alone, also its own. -/
theorem WrapEnds.kekRow {o o' : String} {body : Fields} {aad : Bytes} {fates : List Fate}
    {nonces : List Nonce} {r : Except Stop Reply} {store : Store} {pool : KeyPool} {row : KekRow}
    (h : WrapEnds aead cfg o body aad p fates nonces r store pool)
    (hrow : p.store.kekRow o' = some row) : store.kekRow o' = some row := by
  have hne : p.store.kekRow o = none → o ≠ o' := by
    rintro hn rfl
    rw [hn] at hrow
    cases hrow
  cases h with
  | malformed _ | unreadable _ _ | known _ _ _ _ => exact hrow
  | first hn _ hf _ | stopped hn _ hf => rw [hf.kekRow (hne hn), hrow]

theorem kekRow_step {o : String} {row : KekRow} (a : Act) (hrow : p.store.kekRow o = some row) :
    (step aead cfg p a).1.store.kekRow o = some row := by
  cases a with
  | request r fates nonces =>
    obtain ⟨res, p', hends, hstep⟩ := step_request aead cfg p r fates nonces
    rw [hstep, respond_store]
    cases hends with
    | wrap _ h => exact h.kekRow hrow
    | unwrap _ _ | malformed _ | other _ _ => exact hrow
    | new h =>
      cases h with
      | refused _ => exact hrow
      | bound _ _ hb _ =>
        unfold Store.kekRow
        rw [(bind_ok hb).1]
        exact hrow
  | pull answer now => exact hrow
  | expire peer now => exact hrow
  | restart => exact hrow

/-- **A KEK row never changes and never disappears.** -/
theorem kekRow_exec {o : String} {row : KekRow} (acts : List Act)
    (hrow : p.store.kekRow o = some row) :
    (exec (step aead cfg) p acts).store.kekRow o = some row :=
  exec_invariant (fun p : Process => p.store.kekRow o = some row) hrow
    (fun p a h => kekRow_step (p := p) a h) acts

/-- A wrap that answered left a readable row, and sealed under it. -/
theorem wrapped_row {r : Request} {o : String} {plaintext aad : Bytes} {fates : List Fate}
    {nonces : List Nonce} {blob : String} (hr : r.Wraps o plaintext aad)
    (h : (step aead cfg p (.request r fates nonces)).2 = some ⟨200, .wrapped blob⟩) :
    ∃ row kek nonce sealedBlob,
      (step aead cfg p (.request r fates nonces)).1.store.kekRow o = some row ∧
      row.material aead cfg.localKey = some kek ∧
      aesGcmWrap aead nonce kek plaintext aad = some sealedBlob ∧ blob = b64e sealedBlob := by
  obtain ⟨keyIdOp, body, fields, rfl, hop, hx⟩ := hr
  obtain ⟨res, store, pool, hends, hstep⟩ := step_wrap hop fates nonces
  rw [hstep] at h ⊢
  obtain ⟨rfl, hp'⟩ := respond_eq (by rintro _ ⟨⟩) h
  rw [hp']
  have hsealed : ∀ {kek plaintext'}, b64dField (fields.get "plaintext") = .ok plaintext' →
      Sealed aead kek plaintext' aad (.ok (.wrapped blob)) →
      ∃ nonce sealedBlob, aesGcmWrap aead nonce kek plaintext aad = some sealedBlob ∧
        blob = b64e sealedBlob := by
    rintro kek plaintext' hx' (⟨nonce, sealedBlob, hs, heq⟩ | ⟨⟨⟩⟩)
    cases hx.symm.trans hx'
    cases heq
    exact ⟨nonce, sealedBlob, hs, rfl⟩
  -- only a wrap that sealed answers with a blob: under the row there was, or the new one
  cases hends with
  | known hrow hm hx' hr =>
    obtain ⟨nonce, sealedBlob, hs, hb⟩ := hsealed hx' hr
    exact ⟨_, _, nonce, sealedBlob, hrow, hm, hs, hb⟩
  | first hn hx' hf hr =>
    obtain ⟨nonce, sealedBlob, hs, hb⟩ := hsealed hx' hr
    obtain ⟨row, hrow, hm⟩ := hf.kek
    exact ⟨row, _, nonce, sealedBlob, hrow, hm, hs, hb⟩

/-- A wrap of an object that has a row takes no unit. -/
theorem wrap_deques {r : Request} {o : String} {row : KekRow} {fates : List Fate}
    {nonces : List Nonce} (hr : r.WrapOf o) (hrow : p.store.kekRow o = some row) :
    (step aead cfg p (.request r fates nonces)).1.pool.deques = p.pool.deques := by
  obtain ⟨keyIdOp, body, rfl, hpath⟩ := hr
  obtain ⟨res, p', hends, hstep⟩ :=
    step_request aead cfg p (.keyOp keyIdOp body) fates nonces
  rw [hstep]
  have hkeep : ∀ {p' : Process} {res : Except Stop Reply}, p'.pool = p.pool →
      res ≠ .error .crashed → (respond p' res).1.pool.deques = p.pool.deques := by
    intro p' res hp' hres
    rcases res with (e | _) | reply
    · exact congrArg _ hp'
    · exact absurd rfl hres
    · exact congrArg _ hp'
  cases hends with
  | malformed _ => exact hkeep rfl (by rintro ⟨⟩)
  | other hk _ => cases hk
  | unwrap _ h =>
    refine hkeep rfl ?_
    rintro rfl
    cases h
  | wrap hop h =>
    obtain rfl := parseKeyOp_wrap hop hpath
    cases h with
    | malformed _ | unreadable _ _ => exact hkeep rfl (by rintro ⟨⟩)
    | known _ _ _ hr =>
      refine hkeep rfl ?_
      rintro rfl
      obtain ⟨_, _, _, ⟨⟩⟩ | ⟨⟨⟩⟩ := hr
    -- a first use takes place only without a row
    | first hn _ _ _ | stopped hn _ _ =>
      rw [hrow] at hn
      cases hn

/-- What opens under the row of an object is answered. -/
theorem unwrap_answer {r : Request} {o : String} {row : KekRow} {kek blob plaintext aad : Bytes}
    {fates : List Fate} {nonces : List Nonce} (hr : r.Unwraps o blob aad)
    (hrow : p.store.kekRow o = some row) (hm : row.material aead cfg.localKey = some kek)
    (hopen : aesGcmUnwrap aead kek blob aad = some plaintext) :
    (step aead cfg p (.request r fates nonces)).2 = some ⟨200, .unwrapped (b64e plaintext)⟩ := by
  obtain ⟨keyIdOp, body, fields, rfl, hop, hx⟩ := hr
  obtain ⟨res, hends, hstep⟩ := step_unwrap hop fates nonces
  rw [hstep]
  have hkek : ∀ {row' kek'}, p.store.kekRow o = some row' →
      row'.material aead cfg.localKey = kek' → kek' = some kek := by
    rintro row' kek' hrow' rfl
    cases hrow.symm.trans hrow'
    exact hm
  cases hends with
  -- every end but `opened` contradicts the row, the material or the blob
  | unknown hn =>
    rw [hrow] at hn
    cases hn
  | unreadable hrow' hm' => cases hkek hrow' hm'
  | malformed _ _ he => cases hx.symm.trans he
  | opened hrow' hm' hx' hp' =>
    cases hkek hrow' hm'
    cases hx.symm.trans hx'
    cases hopen.symm.trans hp'
    rfl
  | refused hrow' hm' hx' hp' =>
    cases hkek hrow' hm'
    cases hx.symm.trans hx'
    cases hopen.symm.trans hp'

/-! ## Any run -/

/-- **KEK permanence.** From any process over any database, once a wrap
of `o` has answered, and whatever happens then: the row of `o` stays as
it is, no wrap of `o` takes a unit from the pool, and what the wrap
answered is unwrapped to its plaintext. -/
theorem kek_permanence (aead : Aead) (cfg : Config) (p : Process) {r : Request} {o : String}
    {plaintext aad : Bytes} {fates : List Fate} {nonces : List Nonce} {blob : String}
    (hr : r.Wraps o plaintext aad)
    (hanswer : (step aead cfg p (.request r fates nonces)).2 = some ⟨200, .wrapped blob⟩)
    (acts : List Act) :
    let answered := (step aead cfg p (.request r fates nonces)).1
    let later := exec (step aead cfg) answered acts
    (∃ row, answered.store.kekRow o = some row ∧ later.store.kekRow o = some row) ∧
    (∀ r' fates' nonces', r'.WrapOf o →
      (step aead cfg later (.request r' fates' nonces')).1.pool.deques = later.pool.deques) ∧
    (∀ r' fates' nonces' sealedBlob, b64d blob = some sealedBlob → r'.Unwraps o sealedBlob aad →
      (step aead cfg later (.request r' fates' nonces')).2 =
        some ⟨200, .unwrapped (b64e plaintext)⟩) := by
  intro answered later
  obtain ⟨row, kek, nonce, sealedBlob, hrow, hm, hseal, rfl⟩ := wrapped_row hr hanswer
  have hlater : later.store.kekRow o = some row := kekRow_exec acts hrow
  refine ⟨⟨row, hrow, hlater⟩, ?_, ?_⟩
  · intro r' fates' nonces' hr'
    exact wrap_deques hr' hlater
  · intro r' fates' nonces' sealedBlob' hb hr'
    rw [b64d_b64e] at hb
    cases hb
    exact unwrap_answer hr' hlater hm (aesGcmUnwrap_wrap aead hseal)

end

/-- One peer, and a local key. -/
def onePeer : Config where
  pool := { peers := ["QKD2"] }
  localKey := List.replicate 32 7

def firstKey : Key := ⟨"u1", List.replicate 32 1⟩

/-- A process with one unit in its pool. -/
def stocked : Process :=
  { boot .empty with
    pool := { deques := fun peer => if peer = "QKD2" then [(firstKey, 0)] else [] } }

def wrapHi : Request := .keyOp "k:wrap" (.json (.obj [("plaintext", .str "aGk=")]))

/-- The wrapped text survives a restart. -/
theorem kek_permanence_restart :
    (step .tagging onePeer
      (exec (step .tagging onePeer) (step .tagging onePeer stocked (.request wrapHi [] [])).1
        [.restart])
      (.request (.keyOp "k:unwrap" (.json (.obj
        [("wrappedBlob", .str "AAAAAAAAAAAAAAAAaGkAAAAAAAAAAAAAAAAAAAAA")]))) [] [])).2 =
      some ⟨200, .unwrapped (b64e [104, 105])⟩ := by
  have hwraps : wrapHi.Wraps "k" [104, 105] [] := ⟨_, _, _, rfl, rfl, rfl⟩
  have hanswer : (step .tagging onePeer stocked (.request wrapHi [] [])).2 =
      some ⟨200, .wrapped "AAAAAAAAAAAAAAAAaGkAAAAAAAAAAAAAAAAAAAAA"⟩ := rfl
  exact (kek_permanence .tagging onePeer stocked hwraps hanswer [.restart]).2.2 _ _ _ _ rfl
    ⟨_, _, _, rfl, rfl, rfl⟩

end QkdEkm.Ekm
