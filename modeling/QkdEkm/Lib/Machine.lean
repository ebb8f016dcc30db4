/-!
# Machine — deterministic machines with output

A machine answers each action with a new state and an output. `exec` is
the state after some actions, `trace` the record of every step on the
way. A property that a step preserves holds after every execution
(`exec_invariant`), a relation that a step respects relates the ends of
every execution (`exec_rel`), and a property preserved by the steps that
satisfy a condition holds along every execution whose steps all satisfy
it (`trace_invariant`). A queue that every step serves first in, first
out is so served by every execution (`trace_conserves`).
-/

namespace QkdEkm.Lib

universe u v w

/-- One step of an execution. -/
structure Moment (S : Type u) (A : Type v) (O : Type w) where
  pre : S
  act : A
  out : O
  post : S

section

variable {S : Type u} {A : Type v} {O : Type w} (step : S → A → S × O)

/-- The step that the action `a` makes in `s`. -/
def moment (s : S) (a : A) : Moment S A O where
  pre := s
  act := a
  out := (step s a).2
  post := (step s a).1

/-- The state after some actions. -/
def exec : S → List A → S
  | s, [] => s
  | s, a :: as => exec (step s a).1 as

/-- The steps that some actions make. -/
def trace : S → List A → List (Moment S A O)
  | _, [] => []
  | s, a :: as => moment step s a :: trace (step s a).1 as

variable {step}

theorem exec_append (s : S) (as bs : List A) :
    exec step s (as ++ bs) = exec step (exec step s as) bs := by
  induction as generalizing s with
  | nil => rfl
  | cons a as ih => exact ih _

theorem trace_append (s : S) (as bs : List A) :
    trace step s (as ++ bs) = trace step s as ++ trace step (exec step s as) bs := by
  induction as generalizing s with
  | nil => rfl
  | cons a as ih =>
    simp only [List.cons_append, trace, exec, ih]

theorem exec_invariant (Inv : S → Prop) {s : S} (h0 : Inv s)
    (hstep : ∀ s a, Inv s → Inv (step s a).1) (as : List A) : Inv (exec step s as) := by
  induction as generalizing s with
  | nil => exact h0
  | cons a as ih => exact ih (hstep s a h0)

/-- A machine that leaves out some actions goes where the other one goes
without them. -/
theorem exec_filter {step' : S → A → S × O} {p : A → Prop} [DecidablePred p]
    (hskip : ∀ s a, ¬ p a → (step' s a).1 = s) (hsame : ∀ s a, p a → step' s a = step s a)
    (s : S) (as : List A) : exec step' s as = exec step s (as.filter fun a => p a) := by
  induction as generalizing s with
  | nil => rfl
  | cons a as ih =>
    by_cases ha : p a
    · rw [List.filter_cons_of_pos (by simpa using ha), exec, exec, hsame s a ha]
      exact ih _
    · rw [List.filter_cons_of_neg (by simpa using ha), exec, hskip s a ha]
      exact ih s

/-- A machine that passes some of its actions on, and leaves the others
out, goes where the machine behind it goes. -/
theorem exec_filterMap {B : Type v} {P : Type w} {step' : S → B → S × P} {pass : B → Option A}
    (hskip : ∀ s b, pass b = none → (step' s b).1 = s)
    (hpass : ∀ s b a, pass b = some a → (step' s b).1 = (step s a).1) (s : S) (bs : List B) :
    exec step' s bs = exec step s (bs.filterMap pass) := by
  induction bs generalizing s with
  | nil => rfl
  | cons b bs ih =>
    cases hb : pass b with
    | none =>
      rw [List.filterMap_cons_none hb, exec, hskip s b hb]
      exact ih s
    | some a =>
      rw [List.filterMap_cons_some hb, exec, exec, hpass s b a hb]
      exact ih _

/-- What can be seen of its steps is what can be seen of the steps behind
it. -/
theorem trace_filterMap {B : Type v} {P : Type w} {X : Type u} {step' : S → B → S × P}
    {pass : B → Option A} {see' : Moment S B P → List X} {see : Moment S A O → List X}
    (hskip : ∀ s b, pass b = none → (step' s b).1 = s)
    (hpass : ∀ s b a, pass b = some a → (step' s b).1 = (step s a).1)
    (hunseen : ∀ s b, pass b = none → see' (moment step' s b) = [])
    (hseen : ∀ s b a, pass b = some a → see' (moment step' s b) = see (moment step s a))
    (s : S) (bs : List B) :
    (trace step' s bs).flatMap see' = (trace step s (bs.filterMap pass)).flatMap see := by
  induction bs generalizing s with
  | nil => rfl
  | cons b bs ih =>
    rw [trace, List.flatMap_cons]
    cases hb : pass b with
    | none =>
      rw [List.filterMap_cons_none hb, hunseen s b hb, hskip s b hb]
      exact ih s
    | some a =>
      rw [List.filterMap_cons_some hb, trace, List.flatMap_cons, hseen s b a hb, hpass s b a hb,
        ih (step s a).1]

/-- Two machines that stay related, and whose steps look the same, look the
same along every execution. -/
theorem trace_alike {step' : S → A → S × O} {R : S → S → Prop} {X : Type w} {see : Moment S A O → X}
    {P : A → Prop} (hstep : ∀ s s' a, P a → R s s' → R (step s a).1 (step' s' a).1 ∧
      see (moment step s a) = see (moment step' s' a)) {s s' : S} (hs : R s s') {as : List A}
    (has : ∀ a ∈ as, P a) : (trace step s as).map see = (trace step' s' as).map see := by
  induction as generalizing s s' with
  | nil => rfl
  | cons a as ih =>
    obtain ⟨ha, has⟩ := List.forall_mem_cons.mp has
    obtain ⟨hnext, hsee⟩ := hstep s s' a ha hs
    rw [trace, trace, List.map_cons, List.map_cons, hsee, ih hnext has]

theorem exec_rel {R : S → S → Prop} (hrefl : ∀ s, R s s)
    (htrans : ∀ s t u, R s t → R t u → R s u) (hstep : ∀ s a, R s (step s a).1)
    (s : S) (as : List A) : R s (exec step s as) := by
  induction as generalizing s with
  | nil => exact hrefl s
  | cons a as ih => exact htrans _ _ _ (hstep s a) (ih _)

/-- A step of a trace splits the actions at it. -/
theorem mem_trace {s : S} {as : List A} {m : Moment S A O} (h : m ∈ trace step s as) :
    ∃ before after, as = before ++ m.act :: after ∧
      m = moment step (exec step s before) m.act := by
  induction as generalizing s with
  | nil => cases h
  | cons a as ih =>
    rcases List.mem_cons.mp h with rfl | h
    · exact ⟨[], as, rfl, rfl⟩
    · obtain ⟨before, after, hsplit, hm⟩ := ih h
      exact ⟨a :: before, after, congrArg (a :: ·) hsplit, hm⟩

theorem mem_trace_append (s : S) (before : List A) (a : A) (after : List A) :
    moment step (exec step s before) a ∈ trace step s (before ++ a :: after) := by
  rw [trace_append]
  exact List.mem_append_right _ (List.mem_cons_self ..)

/-- **Invariants of guarded executions**: `Inv` may mention the steps
already taken, and is preserved by every step that satisfies `Ok`. -/
theorem trace_invariant (Inv : List (Moment S A O) → S → Prop) (Ok : Moment S A O → Prop) {s : S}
    (h0 : Inv [] s)
    (hstep : ∀ past t a, Inv past t → Ok (moment step t a) →
      Inv (past ++ [moment step t a]) (step t a).1)
    {as : List A} (hok : ∀ m ∈ trace step s as, Ok m) :
    Inv (trace step s as) (exec step s as) := by
  have key : ∀ as past t, Inv past t → (∀ m ∈ trace step t as, Ok m) →
      Inv (past ++ trace step t as) (exec step t as) := by
    intro as
    induction as with
    | nil =>
      intro past t hi _
      simpa [trace, exec] using hi
    | cons a as ih =>
      intro past t hi hok
      have := ih _ _ (hstep past t a hi (hok _ (List.mem_cons_self ..)))
        fun m hm => hok m (List.mem_cons_of_mem _ hm)
      simpa [trace, exec, List.append_assoc] using this
  exact key as [] s h0 hok

/-- **First in, first out**: if every step puts what enters behind the
queue and takes what leaves from its front, then so does an execution. -/
theorem trace_conserves {X : Type u} (queue : S → List X) (enters leaves : Moment S A O → List X)
    (hstep : ∀ s a, queue s ++ enters (moment step s a) =
      leaves (moment step s a) ++ queue (step s a).1) (s : S) (as : List A) :
    queue s ++ (trace step s as).flatMap enters =
      (trace step s as).flatMap leaves ++ queue (exec step s as) := by
  induction as generalizing s with
  | nil => simp [trace, exec]
  | cons a as ih =>
    simp only [trace, exec, List.flatMap_cons]
    rw [← List.append_assoc, hstep, List.append_assoc, ih, List.append_assoc]

end

end QkdEkm.Lib
