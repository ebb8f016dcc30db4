import QkdEkm.Lib.Percent
import QkdEkm.Lib.Router

/-!
# Routes — the paths of the EKM

The routes in the order in which `create_app` registers them, behind the
four that `FastAPI()` registers for its documentation. `describe_key`
comes before `new_key`, and its parameter may hold slashes.
-/

namespace QkdEkm.Ekm

open QkdEkm.Lib

inductive Method
  | get
  | post
  deriving DecidableEq, Repr

inductive Endpoint
  | openapi
  | swaggerUi
  | swaggerUiRedirect
  | redoc
  | healthz
  | wrapOrUnwrap
  | describeKey
  | readState
  | setAuthority
  | ackRecovery
  | newKey
  deriving DecidableEq, Repr

def routes : List (Route Method Endpoint) :=
  [⟨.get, .exact "/openapi.json".toList, .openapi⟩,
    ⟨.get, .exact "/docs".toList, .swaggerUi⟩,
    ⟨.get, .exact "/docs/oauth2-redirect".toList, .swaggerUiRedirect⟩,
    ⟨.get, .exact "/redoc".toList, .redoc⟩,
    ⟨.get, .exact "/healthz".toList, .healthz⟩,
    ⟨.post, .rest "/api/keys/".toList, .wrapOrUnwrap⟩,
    ⟨.get, .rest "/api/keys/".toList, .describeKey⟩,
    ⟨.get, .exact "/api/state".toList, .readState⟩,
    ⟨.post, .exact "/api/authority".toList, .setAuthority⟩,
    ⟨.post, .exact "/api/recovery/ack".toList, .ackRecovery⟩,
    ⟨.get, .segment "/api/".toList "/new".toList, .newKey⟩]

/-- `/api/{p}/new`. -/
def newPath (p : List Char) : List Char := "/api/".toList ++ (p ++ "/new".toList)

variable {p : List Char}

theorem newPath_getLast? (p : List Char) : (newPath p).getLast? = some 'w' := by
  rw [newPath, ← List.append_assoc, List.getLast?_append]
  rfl

/-- The paths that a peer shares with the keys. -/
theorem newPath_keys {x : List Char} : newPath p = "/api/keys/".toList ++ x ↔
    (p = "keys".toList ∧ x = "new".toList) ∨
      ∃ r, p = "keys/".toList ++ r ∧ x = r ++ "/new".toList := by
  have hsplit : "/api/keys/".toList ++ x = "/api/".toList ++ ("keys/".toList ++ x) := rfl
  rw [newPath, hsplit, List.append_cancel_left_eq, List.append_eq_append_iff]
  constructor
  · rintro (⟨a, hkeys, hnew⟩ | ⟨r, hp, hx⟩)
    · cases a with
      | nil => exact .inr ⟨[], by simpa using hkeys.symm, hnew.symm⟩
      | cons c a =>
        obtain ⟨rfl, hx⟩ : '/' = c ∧ "new".toList = a ++ x := List.cons.inj hnew
        -- the slash of `keys/` is the one behind `p`
        have hcount := congrArg (List.count '/') hkeys
        have hslash : '/' ∉ p := by
          rw [← List.count_eq_zero]
          simp [List.count_append] at hcount
          omega
        have hspan := congrArg (List.span (· ≠ '/')) hkeys
        rw [span_append_sep hslash] at hspan
        obtain ⟨rfl, rfl⟩ : "keys".toList = p ∧ [] = a := by simpa using hspan
        exact .inl ⟨rfl, hx.symm⟩
    · exact .inr ⟨r, hp, hx⟩
  · rintro (⟨rfl, rfl⟩ | ⟨r, rfl, rfl⟩)
    · exact .inl ⟨['/'], rfl, rfl⟩
    · exact .inr ⟨r, rfl, rfl⟩

/-- A route without a parameter is none of them. -/
theorem skip_exact {r : Route Method Endpoint} {rs : List (Route Method Endpoint)} {m : Method}
    {text : List Char} (hr : r.template = .exact text) (htext : text.getLast? ≠ some 'w') :
    dispatch (r :: rs) m (newPath p) = dispatch rs m (newPath p) :=
  dispatch_skip (hr ▸ match?_exact_none (by decide) (newPath_getLast? p) htext)

theorem dispatch_docs (m : Method) :
    dispatch routes m (newPath p) = dispatch (routes.drop 5) m (newPath p) := by
  rw [routes, skip_exact rfl (by decide), skip_exact rfl (by decide), skip_exact rfl (by decide),
    skip_exact rfl (by decide), skip_exact rfl (by decide)]
  rfl

/-- Behind the routes of the keys there is only `new_key`. -/
theorem dispatch_behind_keys :
    dispatch (routes.drop 7) .get (newPath p) =
      if p ≠ [] ∧ '/' ∉ p then .handled .newKey p else .notFound := by
  have hdrop : routes.drop 7 = [⟨.get, .exact "/api/state".toList, .readState⟩,
    ⟨.post, .exact "/api/authority".toList, .setAuthority⟩,
    ⟨.post, .exact "/api/recovery/ack".toList, .ackRecovery⟩,
    ⟨.get, .segment "/api/".toList "/new".toList, .newKey⟩] := rfl
  rw [hdrop, skip_exact rfl (by decide), skip_exact rfl (by decide), skip_exact rfl (by decide)]
  by_cases hslash : '/' ∈ p
  · rw [if_neg fun h => h.2 hslash, dispatch_skip, dispatch_nil]
    obtain ⟨a, b, rfl, ha⟩ := List.eq_append_cons_of_mem hslash
    have heq : newPath (a ++ '/' :: b) = "/api/".toList ++ (a ++ '/' :: (b ++ "/new".toList)) := by
      simp [newPath]
    rw [match?_segment heq ha, if_neg]
    -- what follows the first slash is longer than `new`
    rintro ⟨_, h | h⟩
    · have := congrArg List.length h
      simp at this
    · have := congrArg List.getLast? h
      rw [← List.cons_append, List.getLast?_append] at this
      cases this
  · have hmatch : (Template.segment "/api/".toList "/new".toList).match? (newPath p) =
        if p ≠ [] then some p else none := by
      have heq : newPath p = "/api/".toList ++ (p ++ '/' :: "new".toList) := rfl
      rw [match?_segment heq hslash]
      simp [Ends]
    split
    · rename_i h
      exact dispatch_handled rfl (hmatch.trans (if_pos h.1))
    · rename_i h
      rw [dispatch_skip, dispatch_nil]
      exact hmatch.trans (if_neg fun hne => h ⟨hne, hslash⟩)

/-- **`/api/{p}/new` is a path of the keys** if its rest is one line. -/
theorem dispatch_keys {x : List Char} (h : newPath p = "/api/keys/".toList ++ x)
    (hx : '\n' ∉ x) : dispatch routes .get (newPath p) = .handled .describeKey x := by
  rw [dispatch_docs]
  refine dispatch_other (by decide) ?_
  exact dispatch_handled rfl (match?_rest h hx)

/-- Otherwise it is one of the peer's, or none. -/
theorem dispatch_new (h : ∀ x, newPath p = "/api/keys/".toList ++ x → '\n' ∈ x) :
    dispatch routes .get (newPath p) =
      if p ≠ [] ∧ '/' ∉ p then .handled .newKey p else .notFound := by
  have hkeys : (Template.rest "/api/keys/".toList).match? (newPath p) = none := by
    by_cases hx : ∃ x, newPath p = "/api/keys/".toList ++ x
    · obtain ⟨x, hx⟩ := hx
      have hlast := newPath_getLast? p
      have hne : x ≠ [] := List.ne_nil_of_mem (h x hx)
      rw [hx, List.getLast?_append_of_ne_nil _ hne] at hlast
      exact match?_rest_line hx (h x hx) (by decide) hlast
    · exact match?_prefix_none fun x heq => hx ⟨x, heq⟩
  rw [dispatch_docs, ← dispatch_behind_keys]
  have hdrop : routes.drop 5 = ⟨.post, .rest "/api/keys/".toList, .wrapOrUnwrap⟩ ::
    ⟨.get, .rest "/api/keys/".toList, .describeKey⟩ :: routes.drop 7 := rfl
  rw [hdrop, dispatch_skip hkeys, dispatch_skip hkeys]

end QkdEkm.Ekm
