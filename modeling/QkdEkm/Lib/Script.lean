import Mathlib.Data.List.Forall2

/-!
# Script — programs that call the system

A script makes calls one after the other and goes on with what each of
them returns or raises; it may catch what was raised, and clean up behind
itself. `exec` runs it against a system, and stops when there is no fate
left: the process was killed there. `Ends` is what holds of every end of
a script and on the way to it, for every fate of its calls, and `Only` is
what its calls are. `Couples` sets two scripts side by side that make
calls that go together whatever they are answered (`Couples.exec`): two
runs that differ in what cannot be told apart.
-/

namespace QkdEkm.Lib

/-- A script that ends with a value or an exception. -/
inductive Script (Op : Type) (Ans : Op → Type) (E α : Type)
  | done (r : Except E α)
  | call (op : Op) (next : Except E (Ans op) → Script Op Ans E α)

/-- How far a script came. Without a result it was killed. -/
structure Outcome (Op S E α : Type) where
  state : S
  calls : List Op
  result : Option (Except E α)

namespace Script

variable {Op S Ω E α β : Type} {Ans : Op → Type}

/-- Goes on with what a script ends with. -/
def resume : Script Op Ans E α → (Except E α → Script Op Ans E β) → Script Op Ans E β
  | .done r, k => k r
  | .call op next, k => .call op fun a => (next a).resume k

def raise (e : E) : Script Op Ans E α := .done (.error e)

instance : Monad (Script Op Ans E) where
  pure a := .done (.ok a)
  bind s f := s.resume fun
    | .ok a => f a
    | .error e => raise e

/-- One call. -/
def perform (op : Op) : Script Op Ans E (Ans op) := .call op .done

/-- `try` and `except`. -/
def rescue (s : Script Op Ans E α) (handler : E → Script Op Ans E α) : Script Op Ans E α :=
  s.resume fun
    | .ok a => pure a
    | .error e => handler e

/-- `try` and `finally`. What the cleanup raises takes the place of the
result. -/
def ensuring (s : Script Op Ans E α) (cleanup : Script Op Ans E Unit) : Script Op Ans E α :=
  s.resume fun r => cleanup.resume fun
    | .ok _ => .done r
    | .error e => raise e

variable (step : S → (op : Op) → Ω → S × Except E (Ans op))

/-- The run of a script, with the fates of its calls. -/
def exec : Script Op Ans E α → S → List Ω → Outcome Op S E α
  | .done r, s, _ => ⟨s, [], some r⟩
  | .call _ _, s, [] => ⟨s, [], none⟩
  | .call op next, s, fate :: fates =>
    let after := (next (step s op fate).2).exec (step s op fate).1 fates
    { after with calls := op :: after.calls }

/-! ## Every end -/

/-- `Q` holds of the state, of the calls and of the result at every end of
the script, and `I` of every state on the way; `calls` are those made
before. -/
def Ends (I : S → Prop) (Q : S → List Op → Except E α → Prop) :
    Script Op Ans E α → S → List Op → Prop
  | .done r, s, calls => Q s calls r
  | .call op next, s, calls => ∀ fate, I (step s op fate).1 ∧
    (next (step s op fate).2).Ends I Q (step s op fate).1 (calls ++ [op])

variable {step} {I : S → Prop} {Q Q' : S → List Op → Except E α → Prop} {s : S} {calls : List Op}

theorem Ends.mono {t : Script Op Ans E α} (h : t.Ends step I Q s calls)
    (himp : ∀ s calls r, Q s calls r → Q' s calls r) : t.Ends step I Q' s calls := by
  induction t generalizing s calls with
  | done r => exact himp _ _ _ h
  | call op next ih => exact fun fate => ⟨(h fate).1, ih _ (h fate).2⟩

theorem Ends.weaken {I' : S → Prop} {t : Script Op Ans E α} (h : t.Ends step I Q s calls)
    (himp : ∀ s, I s → I' s) : t.Ends step I' Q s calls := by
  induction t generalizing s calls with
  | done r => exact h
  | call op next ih => exact fun fate => ⟨himp _ (h fate).1, ih _ (h fate).2⟩

/-- An end is on the way too. -/
theorem Ends.along {t : Script Op Ans E α} (h : t.Ends step I Q s calls) (hs : I s) :
    t.Ends step I (fun s calls r => I s ∧ Q s calls r) s calls := by
  induction t generalizing s calls with
  | done r => exact ⟨hs, h⟩
  | call op next ih => exact fun fate => ⟨(h fate).1, ih _ (h fate).2 (h fate).1⟩

theorem ends_trivial (t : Script Op Ans E α) :
    t.Ends step (fun _ => True) (fun _ _ _ => True) s calls := by
  induction t generalizing s calls with
  | done r => trivial
  | call op next ih => exact fun fate => ⟨trivial, ih _⟩

theorem ends_resume {t : Script Op Ans E β} {k : Except E β → Script Op Ans E α} :
    (t.resume k).Ends step I Q s calls ↔
      t.Ends step I (fun s calls r => (k r).Ends step I Q s calls) s calls := by
  induction t generalizing s calls with
  | done r => rfl
  | call op next ih => exact forall_congr' fun fate => and_congr_right fun _ => ih _

theorem Ends.bind {t : Script Op Ans E β} {f : β → Script Op Ans E α}
    {P : S → List Op → Except E β → Prop} (h : t.Ends step I P s calls)
    (hok : ∀ s calls b, P s calls (.ok b) → (f b).Ends step I Q s calls)
    (herror : ∀ s calls e, P s calls (.error e) → Q s calls (.error e)) :
    (t >>= f).Ends step I Q s calls := by
  refine ends_resume.mpr (h.mono fun s calls r hr => ?_)
  cases r with
  | ok b => exact hok s calls b hr
  | error e => exact herror s calls e hr

theorem Ends.rescue {t : Script Op Ans E α} {handler : E → Script Op Ans E α}
    {P : S → List Op → Except E α → Prop} (h : t.Ends step I P s calls)
    (hok : ∀ s calls a, P s calls (.ok a) → Q s calls (.ok a))
    (herror : ∀ s calls e, P s calls (.error e) → (handler e).Ends step I Q s calls) :
    (t.rescue handler).Ends step I Q s calls := by
  refine ends_resume.mpr (h.mono fun s calls r hr => ?_)
  cases r with
  | ok a => exact hok s calls a hr
  | error e => exact herror s calls e hr

theorem Ends.ensuring {t : Script Op Ans E α} {cleanup : Script Op Ans E Unit}
    {P : S → List Op → Except E α → Prop} (h : t.Ends step I P s calls)
    (hcleanup : ∀ s calls r, P s calls r → cleanup.Ends step I (fun s calls r' =>
      Q s calls (match r' with | .ok _ => r | .error e => .error e)) s calls) :
    (t.ensuring cleanup).Ends step I Q s calls := by
  refine ends_resume.mpr (h.mono fun s calls r hr => ends_resume.mpr ?_)
  refine (hcleanup s calls r hr).mono fun s calls r' hr' => ?_
  cases r' <;> exact hr'

/-- **Every finished run is an end.** -/
theorem Ends.exec {t : Script Op Ans E α} (h : t.Ends step I Q s calls) {fates : List Ω}
    {r : Except E α} (hr : (t.exec step s fates).result = some r) :
    Q (t.exec step s fates).state (calls ++ (t.exec step s fates).calls) r := by
  induction t generalizing s calls fates with
  | done r' =>
    cases hr
    rw [Script.exec, List.append_nil]
    exact h
  | call op next ih =>
    cases fates with
    | nil => cases hr
    | cons fate fates =>
      have hnext := ih _ (h fate).2 hr
      rw [List.append_assoc] at hnext
      exact hnext

/-- **Every run**, killed or not, is on the way. -/
theorem Ends.always {t : Script Op Ans E α} (h : t.Ends step I Q s calls) (hs : I s)
    (fates : List Ω) : I (t.exec step s fates).state := by
  induction t generalizing s calls fates with
  | done r => exact hs
  | call op next ih =>
    cases fates with
    | nil => exact hs
    | cons fate fates => exact ih _ (h fate).2 (h fate).1 fates

/-! ## Every call -/

/-- Whatever they are answered, the script makes calls of `P` only. -/
def Only (P : Op → Prop) : Script Op Ans E α → Prop
  | .done _ => True
  | .call op next => P op ∧ ∀ a, (next a).Only P

variable {P : Op → Prop}

theorem Only.resume {t : Script Op Ans E β} {k : Except E β → Script Op Ans E α} (h : t.Only P)
    (hk : ∀ r, (k r).Only P) : (t.resume k).Only P := by
  induction t with
  | done r => exact hk r
  | call op next ih => exact ⟨h.1, fun a => ih a (h.2 a)⟩

theorem Only.bind {t : Script Op Ans E β} {f : β → Script Op Ans E α} (h : t.Only P)
    (hf : ∀ b, (f b).Only P) : (t >>= f).Only P := by
  refine h.resume fun r => ?_
  cases r with
  | ok b => exact hf b
  | error e => trivial

theorem Only.rescue {t : Script Op Ans E α} {handler : E → Script Op Ans E α} (h : t.Only P)
    (hhandler : ∀ e, (handler e).Only P) : (t.rescue handler).Only P := by
  refine h.resume fun r => ?_
  cases r with
  | ok a => trivial
  | error e => exact hhandler e

theorem only_pure (a : α) : (pure a : Script Op Ans E α).Only P := trivial

theorem only_raise (e : E) : (raise e : Script Op Ans E α).Only P := trivial

theorem only_perform (op : Op) (h : P op) : (perform op : Script Op Ans E (Ans op)).Only P :=
  ⟨h, fun _ => trivial⟩

theorem Only.mono {P' : Op → Prop} {t : Script Op Ans E α} (h : t.Only P)
    (himp : ∀ op, P op → P' op) : t.Only P' := by
  induction t with
  | done r => trivial
  | call op next ih => exact ⟨himp op h.1, fun a => ih a (h.2 a)⟩

/-- What every such call keeps, the script keeps. -/
theorem Only.ends {J : S → Prop} (hstep : ∀ s op fate, P op → J s → J (step s op fate).1)
    (hway : ∀ s, J s → I s) {t : Script Op Ans E α} (h : t.Only P) (hs : J s) :
    t.Ends step I (fun s _ _ => J s) s calls := by
  induction t generalizing s calls with
  | done r => exact hs
  | call op next ih =>
    intro fate
    have hnext := hstep s op fate h.1 hs
    exact ⟨hway _ hnext, ih _ (h.2 _) hnext⟩

/-! ## Two runs -/

end Script

/-- Which calls of two scripts go together, and which of their answers. -/
structure Coupling (Op : Type) (Ans : Op → Type) where
  Same : Op → Op → Prop
  Like : (op op' : Op) → Ans op → Ans op' → Prop

/-- Two results that go together: the same exception, or like values. -/
inductive Agree {E α β : Type} (V : α → β → Prop) : Except E α → Except E β → Prop
  | ok {a b} (h : V a b) : Agree V (.ok a) (.ok b)
  | error (e) : Agree V (.error e) (.error e)

/-- Results that agree on equal values are equal. -/
theorem eq_of_agree {E α : Type} {r r' : Option (Except E α)} (h : Option.Rel (Agree Eq) r r') :
    r = r' := by
  cases h with
  | none => rfl
  | some h =>
    cases h with
    | ok h => rw [h]
    | error e => rfl

namespace Script

variable {Op S S' Ω E α α' β β' : Type} {Ans : Op → Type} {c : Coupling Op Ans}

/-- The two scripts make calls that go together and end with results that
do. -/
inductive Couples (c : Coupling Op Ans) (V : α → β → Prop) :
    Script Op Ans E α → Script Op Ans E β → Prop
  | done {r r'} (h : Agree V r r') : Couples c V (.done r) (.done r')
  | call {op op' next next'} (hsame : c.Same op op')
    (hnext : ∀ a a', Agree (c.Like op op') a a' → Couples c V (next a) (next' a')) :
    Couples c V (.call op next) (.call op' next')

variable {V : α → β → Prop} {W : α' → β' → Prop}

theorem Couples.resume {t : Script Op Ans E α} {t' : Script Op Ans E β}
    {k : Except E α → Script Op Ans E α'} {k' : Except E β → Script Op Ans E β'}
    (h : Couples c V t t') (hk : ∀ r r', Agree V r r' → Couples c W (k r) (k' r')) :
    Couples c W (t.resume k) (t'.resume k') := by
  induction h with
  | done h => exact hk _ _ h
  | call hsame _ ih => exact .call hsame ih

theorem Couples.mono {V' : α → β → Prop} {t : Script Op Ans E α} {t' : Script Op Ans E β}
    (h : Couples c V t t') (himp : ∀ a b, V a b → V' a b) : Couples c V' t t' := by
  induction h with
  | done h =>
    cases h with
    | ok h => exact .done (.ok (himp _ _ h))
    | error e => exact .done (.error e)
  | call hsame _ ih => exact .call hsame ih

theorem couples_pure {a : α} {b : β} (h : V a b) :
    @Couples Op E α β Ans c V (pure a) (pure b) := .done (.ok h)

theorem couples_raise (e : E) : Couples c V (raise e) (raise e) := .done (.error e)

theorem couples_perform (op op' : Op) (h : c.Same op op') :
    @Couples Op E (Ans op) (Ans op') Ans c (c.Like op op') (perform op) (perform op') :=
  .call h fun _ _ ha => .done ha

theorem Couples.bind {t : Script Op Ans E α} {t' : Script Op Ans E β}
    {f : α → Script Op Ans E α'} {f' : β → Script Op Ans E β'} (h : Couples c V t t')
    (hf : ∀ a b, V a b → Couples c W (f a) (f' b)) : Couples c W (t >>= f) (t' >>= f') := by
  refine h.resume fun r r' hr => ?_
  cases hr with
  | ok h => exact hf _ _ h
  | error e => exact couples_raise e

theorem Couples.rescue {t : Script Op Ans E α} {t' : Script Op Ans E β}
    {handler : E → Script Op Ans E α} {handler' : E → Script Op Ans E β} (h : Couples c V t t')
    (hhandler : ∀ e, Couples c V (handler e) (handler' e)) :
    Couples c V (t.rescue handler) (t'.rescue handler') := by
  refine h.resume fun r r' hr => ?_
  cases hr with
  | ok h => exact couples_pure h
  | error e => exact hhandler e

theorem Couples.ensuring {t : Script Op Ans E α} {t' : Script Op Ans E β}
    {cleanup cleanup' : Script Op Ans E Unit} (h : Couples c V t t')
    (hcleanup : Couples c (fun _ _ => True) cleanup cleanup') :
    Couples c V (t.ensuring cleanup) (t'.ensuring cleanup') := by
  refine h.resume fun r r' hr => hcleanup.resume fun e e' he => ?_
  cases he with
  | ok _ => exact .done hr
  | error e => exact couples_raise e

/-- A script whose calls show nothing goes together with itself. -/
theorem Only.couples {P : Op → Prop}
    (hP : ∀ op, P op → c.Same op op ∧ ∀ a a', c.Like op op a a' → a = a')
    {t : Script Op Ans E α} (h : t.Only P) : Couples c Eq t t := by
  induction t with
  | done r =>
    cases r with
    | ok a => exact couples_pure rfl
    | error e => exact couples_raise e
  | call op next ih =>
    refine .call (hP op h.1).1 fun a a' ha => ?_
    cases ha with
    | error e => exact ih _ (h.2 _)
    | ok hlike =>
      obtain rfl := (hP op h.1).2 _ _ hlike
      exact ih _ (h.2 _)

/-- The two systems answer calls that go together alike, and stay related. -/
def Respects (c : Coupling Op Ans) (R : S → S' → Prop)
    (step : S → (op : Op) → Ω → S × Except E (Ans op))
    (step' : S' → (op : Op) → Ω → S' × Except E (Ans op)) : Prop :=
  ∀ s s' op op' fate, R s s' → c.Same op op' →
    R (step s op fate).1 (step' s' op' fate).1 ∧
      Agree (c.Like op op') (step s op fate).2 (step' s' op' fate).2

/-- **Coupled scripts run alike**, also when they are killed on the way. -/
theorem Couples.exec {R : S → S' → Prop} {step : S → (op : Op) → Ω → S × Except E (Ans op)}
    {step' : S' → (op : Op) → Ω → S' × Except E (Ans op)} {t : Script Op Ans E α}
    {t' : Script Op Ans E β} (h : Couples c V t t') (hstep : Respects c R step step') {s : S}
    {s' : S'} (hs : R s s') (fates : List Ω) :
    R (t.exec step s fates).state (t'.exec step' s' fates).state ∧
      List.Forall₂ c.Same (t.exec step s fates).calls (t'.exec step' s' fates).calls ∧
      Option.Rel (Agree V) (t.exec step s fates).result (t'.exec step' s' fates).result := by
  induction h generalizing s s' fates with
  | done h => exact ⟨hs, .nil, .some h⟩
  | @call op op' next next' hsame _ ih =>
    cases fates with
    | nil => exact ⟨hs, .nil, .none⟩
    | cons fate fates =>
      obtain ⟨hafter, hanswer⟩ := hstep s s' op op' fate hs hsame
      obtain ⟨hstate, hcalls, hresult⟩ := ih _ _ hanswer hafter fates
      exact ⟨hstate, .cons hsame hcalls, hresult⟩

end Script

end QkdEkm.Lib
