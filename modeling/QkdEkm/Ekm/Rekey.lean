import QkdEkm.Ekm.Binding

/-!
# Rekey — the recovery branch of a first use

`_wrap` catches `AlreadyBound` from the second write of a first use: an
earlier attempt may have bound the object and lost its material. The
material is written first, and every binding of an object was written
right after it, so an object without a KEK has no binding and the branch
has nothing to recover from.
-/

namespace QkdEkm.Ekm

open QkdEkm.Common QkdEkm.Lib

section

variable {aead : Aead} {cfg : Config} {p : Process} {w : World}

/-- A first use up to its second write, of which nothing is caught. -/
def firstUseUncaught (aead : Aead) (cfg : Config) (keyId : String) : Handler PUnit := do
  let key ← allocate cfg cfg.bindPeer
  putKek aead cfg keyId key.keyId key.key
  storeBind key.keyId .ekm keyId cfg.bindPeer

/-- A request enters `except AlreadyBound`: a wrap of an object that has
no KEK, of which the second write finds the unit or the object bound. -/
def Recovers (aead : Aead) (cfg : Config) (p : Process) (a : Act) : Prop :=
  ∃ r fates nonces o plaintext aad w, a = .request r fates nonces ∧ r.Wraps o plaintext aad ∧
    p.store.getKek aead cfg.localKey o = .ok none ∧
    firstUseUncaught aead cfg o { process := p.checkRecovery, fates, nonces } =
      .error (.raised .alreadyBound) w

/-- The program does not stop with a clash. -/
def Clashless {α : Type} (r : Except Stop α) : Prop := r ≠ .error (.raised .alreadyBound)

theorem poolAllocate_clashless (peer : String) :
    Wp (poolAllocate cfg peer) (fun r _ => Clashless r) w := by
  unfold Wp poolAllocate KeyPool.allocate Clashless
  by_cases hp : peer ∈ cfg.pool.peers
  · rcases hdq : w.process.pool.deques peer with _ | ⟨⟨key, receivedAt⟩, rest⟩
    · simp [hp]
    · by_cases hc : w.process.store.isConsumed key.keyId <;> simp [hp, hc]
  · simp [hp]

theorem allocate_clashless (peer : String) :
    Wp (allocate cfg peer) (fun r _ => Clashless r) w := by
  have hraise : ∀ {code message t}, Wp (raise (httpError code message) : Handler Key)
      (fun r _ => Clashless r) t := by
    intro code message t h
    cases h
  exact Wp.catching
    (Wp.catching (poolAllocate_clashless peer) (fun _ _ h => h) (fun _ _ => hraise)
      fun _ _ _ h => h)
    (fun _ _ h => h) (fun _ _ => hraise) fun _ _ _ h => h

/-- What `put_kek` writes never clashes. -/
theorem putKek_clashless (o : String) (key : Key) :
    Wp (putKek aead cfg o key.keyId key.key) (fun r _ => Clashless r) w := by
  unfold putKek
  rw [wp_bind, wp_urandom, then_ok]
  refine wp_bind.mpr (wp_lift.mpr ?_)
  split
  · rw [then_ok]
    refine (commit_spec _).mono ?_
    rintro r _ ⟨store', hw, rfl⟩ rfl
    cases hw with
    | wrote _ hc => obtain ⟨_, ⟨⟩⟩ | ⟨_, ⟨⟩⟩ := hc
    | refused he _ => cases he
  · rename_i e he
    unfold Store.encKek at he
    split at he
    · cases he
    · cases he
      rintro ⟨⟩

/-- **The second write of a first use clashes only with a binding of the
object**: the unit is unconsumed. -/
theorem firstUseUncaught_clash (o : String) : Wp (firstUseUncaught aead cfg o) (fun r _ =>
    r = .error (.raised .alreadyBound) →
      ∃ b ∈ w.process.store.bindings.rows, b.purpose = .ekm ∧ b.objectId = o) w := by
  unfold firstUseUncaught
  refine Wp.bind ((allocate_spec _ w).and (allocate_clashless _)) ?_ ?_
  · rintro key _ ⟨⟨pool, rfl, ⟨⟩ | ht⟩, _⟩
    refine Wp.bind ((putKek_spec o key _).and (putKek_clashless o key)) ?_ ?_
    · rintro ⟨⟩ w₁ ⟨⟨_, _, ⟨⟩⟩ | ⟨row, _, _, _, hp⟩, _⟩
      refine (commit_spec _).mono ?_
      rintro r _ ⟨store, hwrite, rfl⟩ rfl
      rw [hp] at hwrite
      cases hwrite with
      | wrote _ hc => obtain ⟨_, ⟨⟩⟩ | ⟨_, ⟨⟩⟩ := hc
      | refused he _ => exact clash_object ht (bind_error he).2
    · rintro stop t ⟨_, hc⟩ heq
      exact absurd (congrArg _ (Except.error.inj heq)) hc
  · rintro stop t ⟨_, hc⟩ heq
    exact absurd (congrArg _ (Except.error.inj heq)) hc

/-- Over tables that agree the branch is not entered. -/
theorem Backed.not_recovers {units : List Key} (h : Backed aead cfg units p.store) (a : Act) :
    ¬ Recovers aead cfg p a := by
  rintro ⟨r, fates, nonces, o, plaintext, aad, w, _, _, hnone, hends⟩
  have hrow : p.store.kekRow o = none := by
    cases hrow : p.store.kekRow o with
    | none => rfl
    | some row =>
      rw [getKek_of_some hrow] at hnone
      split at hnone <;> cases hnone
  obtain ⟨b, hb, hekm⟩ := (firstUseUncaught_clash o).error hends rfl
  exact h.unbound hrow b hb hekm

end

/-- **Every EKM binding has its KEK**, in every run from the empty
database, with whatever units, failures, deaths and restarts; so no
request enters the recovery branch, and the KEK row of an object never
changes. -/
theorem binding_has_kek (aead : Aead) (cfg : Config) (acts : List Act) :
    let p := exec (step aead cfg) (boot .empty) acts
    (∀ b ∈ p.store.bindings.rows, b.purpose = .ekm →
      ∃ row, p.store.kekRow b.objectId = some row ∧ row.qkdKeyId = b.qkdKeyId) ∧
    (∀ a, ¬ Recovers aead cfg p a) ∧
    ∀ o row later, p.store.kekRow o = some row →
      (exec (step aead cfg) p later).store.kekRow o = some row := by
  intro p
  have hbacked := (sound_run aead cfg acts).backed
  refine ⟨?_, hbacked.not_recovers, fun o row later hrow => kekRow_exec later hrow⟩
  intro b hb hekm
  obtain ⟨row, hrow, ho, hq⟩ := hbacked.kek b hb hekm
  exact ⟨row, kekRow_eq_some.mpr ⟨hrow, ho⟩, hq⟩

end QkdEkm.Ekm
