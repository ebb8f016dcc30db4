/-!
# Wp — preconditions of programs that may stop

Programs are `EStateM`: they return a value or stop with an error, and
keep the state they reached either way. `Wp x R s` says that from `s`
the program `x` ends with a result and a state related by `R`. The
`wp_` lemmas compute it over the constructs of a `do` block; `Wp.mono`
weakens it at the calls.
-/

namespace QkdEkm.Lib

universe u

variable {ε σ α β : Type u}

def Wp (x : EStateM ε σ α) (R : Except ε α → σ → Prop) (s : σ) : Prop :=
  match x s with
  | .ok a t => R (.ok a) t
  | .error e t => R (.error e) t

/-- What remains to be shown of a program after its first part. -/
def Then (f : β → EStateM ε σ α) (R : Except ε α → σ → Prop) : Except ε β → σ → Prop
  | .ok b, t => Wp (f b) R t
  | .error e, t => R (.error e) t

variable {R : Except ε α → σ → Prop} {s : σ}

@[simp] theorem then_ok {f : β → EStateM ε σ α} {b : β} :
    Then f R (.ok b) s ↔ Wp (f b) R s := Iff.rfl

@[simp] theorem then_error {f : β → EStateM ε σ α} {e : ε} :
    Then f R (.error e) s ↔ R (.error e) s := Iff.rfl

theorem Wp.mono {x : EStateM ε σ α} {R' : Except ε α → σ → Prop} (h : Wp x R s)
    (himp : ∀ r t, R r t → R' r t) : Wp x R' s := by
  unfold Wp at h ⊢
  split <;> rename_i hx <;> rw [hx] at h <;> exact himp _ _ h

theorem Wp.and {x : EStateM ε σ α} {R' : Except ε α → σ → Prop} (h : Wp x R s) (h' : Wp x R' s) :
    Wp x (fun r t => R r t ∧ R' r t) s := by
  unfold Wp at h h' ⊢
  split <;> rename_i hx <;> rw [hx] at h h' <;> exact ⟨h, h'⟩

theorem Wp.ok {x : EStateM ε σ α} {a : α} {t : σ} (h : Wp x R s) (hx : x s = .ok a t) :
    R (.ok a) t := by
  unfold Wp at h
  rwa [hx] at h

theorem Wp.error {x : EStateM ε σ α} {e : ε} {t : σ} (h : Wp x R s)
    (hx : x s = .error e t) : R (.error e) t := by
  unfold Wp at h
  rwa [hx] at h

theorem Wp.of_ok {x : EStateM ε σ α} {a : α} {t : σ} (hx : x s = .ok a t) (hr : R (.ok a) t) :
    Wp x R s := by
  unfold Wp
  rw [hx]
  exact hr

theorem Wp.of_error {x : EStateM ε σ α} {e : ε} {t : σ} (hx : x s = .error e t)
    (hr : R (.error e) t) : Wp x R s := by
  unfold Wp
  rw [hx]
  exact hr

theorem Wp.of_forall {x : EStateM ε σ α} (h : ∀ r t, R r t) : Wp x R s := by
  unfold Wp
  split <;> exact h _ _

theorem wp_get {R : Except ε σ → σ → Prop} : Wp (get : EStateM ε σ σ) R s ↔ R (.ok s) s :=
  Iff.rfl

theorem wp_modify {R : Except ε PUnit → σ → Prop} {f : σ → σ} :
    Wp (modify f : EStateM ε σ PUnit) R s ↔ R (.ok ⟨⟩) (f s) := Iff.rfl

theorem wp_bind {x : EStateM ε σ β} {f : β → EStateM ε σ α} :
    Wp (x >>= f) R s ↔ Wp x (Then f R) s := by
  unfold Wp
  simp only [bind, EStateM.bind]
  cases x s <;> rfl

/-- The first part of a program by its specification, the rest from any
end the specification allows. -/
theorem Wp.bind {x : EStateM ε σ β} {f : β → EStateM ε σ α} {P : Except ε β → σ → Prop}
    (h : Wp x P s) (hok : ∀ b t, P (.ok b) t → Wp (f b) R t)
    (herr : ∀ e t, P (.error e) t → R (.error e) t) : Wp (x >>= f) R s := by
  rw [wp_bind]
  refine h.mono fun r t hp => ?_
  cases r with
  | ok b => exact hok b t hp
  | error e => exact herr e t hp

theorem wp_tryCatch {x : EStateM ε σ α} {h : ε → EStateM ε σ α} :
    Wp (tryCatch x h) R s ↔ Wp x (fun r t =>
      match r with
      | .ok a => R (.ok a) t
      | .error e => Wp (h e) R t) s := by
  unfold Wp
  simp only [tryCatch, tryCatchThe, MonadExceptOf.tryCatch]
  delta EStateM.tryCatch
  dsimp only
  cases x s <;> rfl

/-- The same for the pure part of a program: it returns only if both of
its parts do. -/
theorem except_bind_eq_ok {x : Except ε β} {f : β → Except ε α} {a : α} :
    (x >>= f) = .ok a ↔ ∃ b, x = .ok b ∧ f b = .ok a := by
  cases x with
  | ok b => exact ⟨fun h => ⟨b, rfl, h⟩, by rintro ⟨_, ⟨⟩, h⟩; exact h⟩
  | error e => exact ⟨by rintro ⟨⟩, by rintro ⟨_, ⟨⟩, _⟩⟩

end QkdEkm.Lib
