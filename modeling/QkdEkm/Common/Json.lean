/-!
# Json — parsed request bodies

What `request.json()` returns, with Python's truth values and equality.
-/

namespace QkdEkm.Common

/-- A parsed JSON value. A number is its value, or `none` for the
non-finite literals that Python's parser also accepts. -/
inductive Json
  | null
  | bool (b : Bool)
  | num (n : Option Rat)
  | str (s : String)
  | arr (items : List Json)
  | obj (fields : List (String × Json))
  deriving Repr

namespace Json

/-- Whether `if value` takes its branch. -/
def truthy : Json → Bool
  | null => false
  | bool b => b
  | num n => n != some 0
  | str s => s != ""
  | arr items => !items.isEmpty
  | obj fields => !fields.isEmpty

/-- A truth value counts as a number. -/
def number : Json → Option (Option Rat)
  | bool b => some (some (if b then 1 else 0))
  | num n => some n
  | _ => none

/-- Lists and dictionaries have no hash. -/
def hashable : Json → Bool
  | arr _ | obj _ => false
  | null | bool _ | num _ | str _ => true

end Json

/-- The fields of a JSON object as they were sent; the last of several
with one name counts. -/
abbrev Fields := List (String × Json)

/-- The value of a field that is there. -/
def Fields.get? (body : Fields) (name : String) : Option Json := body.reverse.lookup name

/-- `body.get(name)`. -/
def Fields.get (body : Fields) (name : String) : Json :=
  (body.reverse.lookup name).getD .null

/-- `a == b` for values that are not containers. The type does not tell
the non-finite numbers apart; `same` says whether two of them are equal. -/
def Json.eqScalar (same : Bool) (a b : Json) : Bool :=
  match a, b with
  | .null, .null => true
  | .str s, .str t => s == t
  | a, b =>
    match a.number, b.number with
    | some none, some none => same
    | some m, some n => m == n
    | _, _ => false

mutual

/-- `a == b`. -/
def Json.eq (same : Bool) : Json → Json → Bool
  | .arr xs, .arr ys => eqItems same xs ys
  | .obj xs, .obj ys => eqFields same xs ys && ys.all fun y => xs.any fun x => x.1 == y.1
  | a, b => a.eqScalar same b

def Json.eqItems (same : Bool) : List Json → List Json → Bool
  | [], [] => true
  | x :: xs, y :: ys => Json.eq same x y && eqItems same xs ys
  | _, _ => false

/-- A field that a later one overwrites does not count. -/
def Json.eqFields (same : Bool) : Fields → Fields → Bool
  | [], _ => true
  | (name, x) :: xs, ys =>
    (xs.any (·.1 == name) ||
      match Fields.get? ys name with
      | some y => Json.eq same x y
      | none => false) && eqFields same xs ys

end

/-- A request body: not JSON, nested too deeply for the parser, which then
raises `RecursionError`, or JSON. -/
inductive Body
  | malformed
  | tooDeep
  | json (value : Json)
  deriving Repr

end QkdEkm.Common
