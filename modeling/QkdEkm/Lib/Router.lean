import QkdEkm.Lib.Text

/-!
# Router — path templates tried in order

A template is an anchored regular expression: `{x}` is `[^/]+`, and
`{x:path}` is `.*`, which stops at a line break. `dispatch` takes the
first route that matches path and method; without one it takes the first
that matches the path, to refuse the method.
-/

namespace QkdEkm.Lib

/-- A path template with at most one parameter. What follows `{x}` is
empty or begins with a slash. -/
inductive Template
  | exact (path : List Char)
  | segment (before after : List Char)
  | rest (before : List Char)
  deriving DecidableEq, Repr

/-- `t` is `tail`, as far as `$` can tell: it also matches before a line
break at the end. -/
def Ends (tail t : List Char) : Prop := t = tail ∨ t = tail ++ ['\n']

instance (tail t : List Char) : Decidable (Ends tail t) :=
  inferInstanceAs (Decidable (_ ∨ _))

/-- The parameter, if the template matches. -/
def Template.match? (path : List Char) : Template → Option (List Char)
  | .exact text => if Ends text path then some [] else none
  | .segment before after => do
    let tail ← path.dropPrefix? before
    let (x, tail) := tail.span (· ≠ '/')
    if x ≠ [] ∧ Ends after tail then some x else none
  | .rest before => do
    let tail ← path.dropPrefix? before
    let (x, tail) := tail.span (· ≠ '\n')
    if Ends [] tail then some x else none

structure Route (M E : Type) where
  method : M
  template : Template
  endpoint : E

/-- What a router does with a request. -/
inductive Dispatch (E : Type)
  | handled (endpoint : E) (x : List Char)
  | notAllowed (endpoint : E)
  | notFound
  deriving DecidableEq, Repr

section

variable {M E : Type} [DecidableEq M]

def Route.full? (r : Route M E) (method : M) (path : List Char) : Option (E × List Char) :=
  if r.method = method then (r.template.match? path).map (r.endpoint, ·) else none

def dispatch (routes : List (Route M E)) (method : M) (path : List Char) : Dispatch E :=
  match routes.findSome? (·.full? method path) with
  | some (endpoint, x) => .handled endpoint x
  | none =>
    match routes.find? fun r => (r.template.match? path).isSome with
    | some r => .notAllowed r.endpoint
    | none => .notFound

variable {r : Route M E} {rs : List (Route M E)} {method : M} {path : List Char}

/-- A route whose template does not match is passed over. -/
theorem dispatch_skip (h : r.template.match? path = none) :
    dispatch (r :: rs) method path = dispatch rs method path := by
  have hfull : r.full? method path = none := by simp [Route.full?, h]
  simp only [dispatch, List.findSome?_cons, hfull, List.find?_cons, h, Option.isSome_none]

/-- A route that matches is taken. -/
theorem dispatch_handled {x : List Char} (hm : r.method = method)
    (h : r.template.match? path = some x) :
    dispatch (r :: rs) method path = .handled r.endpoint x := by
  have hfull : r.full? method path = some (r.endpoint, x) := by simp [Route.full?, h, hm]
  simp only [dispatch, List.findSome?_cons, hfull]

/-- A route of another method does not stand in the way. -/
theorem dispatch_other {e : E} {x : List Char} (hm : r.method ≠ method)
    (h : dispatch rs method path = .handled e x) :
    dispatch (r :: rs) method path = .handled e x := by
  have hfull : r.full? method path = none := by simp [Route.full?, hm]
  simp only [dispatch, List.findSome?_cons, hfull]
  unfold dispatch at h
  split at h
  · rename_i heq
    rw [heq]
    exact h
  · split at h <;> cases h

/-- A request that is handled has the method of a route whose template
matches. -/
theorem route_of_handled {routes : List (Route M E)} {e : E} {x : List Char}
    (h : dispatch routes method path = .handled e x) :
    ∃ r ∈ routes, r.endpoint = e ∧ r.method = method ∧ r.template.match? path = some x := by
  unfold dispatch at h
  split at h
  · rename_i endpoint y hfound
    cases h
    obtain ⟨r, hr, hfull⟩ := List.exists_of_findSome?_eq_some hfound
    unfold Route.full? at hfull
    split at hfull
    · rename_i hm
      obtain ⟨_, hmatch, heq⟩ := Option.map_eq_some_iff.mp hfull
      cases heq
      exact ⟨r, hr, rfl, hm, hmatch⟩
    · cases hfull
  · split at h <;> cases h

theorem dispatch_nil : dispatch ([] : List (Route M E)) method path = .notFound := rfl

end

/-! ## Matching -/

section

variable {path before : List Char}

theorem dropPrefix?_eq_some {x : List Char} :
    path.dropPrefix? before = some x ↔ path = before ++ x := by
  rw [List.dropPrefix?_eq_some_iff]
  constructor
  · rintro ⟨p', rfl, h⟩
    rw [eq_of_beq h]
  · rintro rfl
    exact ⟨before, rfl, beq_self_eq_true before⟩

/-- The last character tells a text from another. -/
theorem match?_exact_none {text : List Char} {c : Char} (hc : c ≠ '\n')
    (hlast : path.getLast? = some c) (htext : text.getLast? ≠ some c) :
    (Template.exact text).match? path = none := by
  rw [Template.match?, if_neg]
  rintro (rfl | rfl)
  · exact htext hlast
  · rw [List.getLast?_append] at hlast
    exact hc (Option.some.inj hlast).symm

theorem match?_rest {x : List Char} (h : path = before ++ x) (hx : '\n' ∉ x) :
    (Template.rest before).match? path = some x := by
  rw [Template.match?, dropPrefix?_eq_some.mpr h]
  simp only [Option.bind_eq_bind, Option.bind_some, span_no_sep hx]
  rfl

theorem match?_rest_line {x : List Char} {c : Char} (h : path = before ++ x) (hx : '\n' ∈ x)
    (hc : c ≠ '\n') (hlast : x.getLast? = some c) :
    (Template.rest before).match? path = none := by
  obtain ⟨a, b, rfl, ha⟩ := List.eq_append_cons_of_mem hx
  rw [Template.match?, dropPrefix?_eq_some.mpr h]
  simp only [Option.bind_eq_bind, Option.bind_some, span_append_sep ha]
  rw [if_neg]
  rintro (hend | hend)
  · cases hend
  · cases hend
    rw [List.getLast?_append] at hlast
    exact hc (Option.some.inj hlast).symm

theorem match?_segment {x after rest : List Char} (h : path = before ++ (x ++ '/' :: rest))
    (hx : '/' ∉ x) : (Template.segment before after).match? path =
      if x ≠ [] ∧ Ends after ('/' :: rest) then some x else none := by
  rw [Template.match?, dropPrefix?_eq_some.mpr h]
  simp only [Option.bind_eq_bind, Option.bind_some, span_append_sep hx]

/-- What a template with a segment matches. -/
theorem segment_of_match? {after x : List Char}
    (h : (Template.segment before after).match? path = some x) :
    x ≠ [] ∧ '/' ∉ x ∧ Ends (before ++ (x ++ after)) path := by
  rw [Template.match?] at h
  obtain ⟨tail, htail, h⟩ := Option.bind_eq_some_iff.mp h
  rw [List.span_eq_takeWhile_dropWhile] at h
  dsimp only at h
  split at h
  · rename_i hends
    cases h
    refine ⟨hends.1, fun hmem => ?_, ?_⟩
    · simpa using List.mem_takeWhile_imp hmem
    · rw [dropPrefix?_eq_some.mp htail]
      have hsplit := List.takeWhile_append_dropWhile (p := fun c => decide (c ≠ '/')) (l := tail)
      rcases hends.2 with hend | hend
      · left
        rw [hend] at hsplit
        rw [hsplit]
      · right
        rw [hend] at hsplit
        rw [List.append_assoc, List.append_assoc, hsplit]
  · cases h

/-- What a template with the rest of the path matches. -/
theorem rest_of_match? {x : List Char} (h : (Template.rest before).match? path = some x) :
    '\n' ∉ x ∧ Ends (before ++ x) path := by
  rw [Template.match?] at h
  obtain ⟨tail, htail, h⟩ := Option.bind_eq_some_iff.mp h
  rw [List.span_eq_takeWhile_dropWhile] at h
  dsimp only at h
  split at h
  · rename_i hends
    cases h
    refine ⟨fun hmem => ?_, ?_⟩
    · simpa using List.mem_takeWhile_imp hmem
    · rw [dropPrefix?_eq_some.mp htail]
      have hsplit := List.takeWhile_append_dropWhile (p := fun c => decide (c ≠ '\n')) (l := tail)
      rcases hends with hend | hend
      · left
        rw [hend, List.append_nil] at hsplit
        rw [hsplit]
      · right
        rw [hend] at hsplit
        rw [List.append_assoc]
        exact congrArg _ hsplit.symm
  · cases h

theorem match?_prefix_none (h : ∀ x, path ≠ before ++ x) :
    (Template.rest before).match? path = none := by
  have hdrop : path.dropPrefix? before = none := by
    rw [Option.eq_none_iff_forall_ne_some]
    intro x hx
    exact h x (dropPrefix?_eq_some.mp hx)
  rw [Template.match?, hdrop]
  rfl

end

end QkdEkm.Lib
