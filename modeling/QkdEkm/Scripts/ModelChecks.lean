import QkdEkm.Common.Json
import QkdEkm.Lib.Wp
import QkdEkm.Scripts.Compare

/-!
# ModelChecks — the comparison of the model's report

`_model_checks` compares seven numbers of `report.json` with the
published ones. It does not read the report's violations, and it takes
the length of a text for a number of names, and a part of a text for an
element of a list.
-/

namespace QkdEkm.Scripts

open QkdEkm.Common QkdEkm.Lib

/-- What reading a JSON value of the wrong form raises. -/
inductive Raised
  | keyError
  | typeError
  | attributeError
  deriving DecidableEq, Repr

/-- What a cell shows, before it is formatted. -/
inductive Cell
  | text (s : String)
  | value (v : Json)

/-! ## Reading JSON values -/

/-- `value[name]`. -/
def subscript (name : String) : Json → Except Raised Json
  | .obj fields =>
    match Fields.get? fields name with
    | some value => .ok value
    | none => .error .keyError
  | _ => .error .typeError

/-- `value.get(name, default)`. -/
def getOr (name : String) (default : Json) : Json → Except Raised Json
  | .obj fields => .ok ((Fields.get? fields name).getD default)
  | _ => .error .attributeError

/-- `len(value)`. -/
def length : Json → Except Raised Nat
  | .str s => .ok s.toList.length
  | .arr items => .ok items.length
  | .obj fields => .ok (fields.map (·.1)).eraseDups.length
  | .null | .bool _ | .num _ => .error .typeError

/-- What a `for` loop runs over. -/
def elements : Json → Except Raised (List Json)
  | .str s => .ok (s.toList.map fun c => .str (String.singleton c))
  | .arr items => .ok items
  | .obj fields => .ok ((fields.map (·.1)).eraseDups.map .str)
  | .null | .bool _ | .num _ => .error .typeError

/-- `item in value`. -/
def isIn (same : Bool) (item : Json) : Json → Except Raised Bool
  | .arr items => .ok (items.any fun other => item.eq same other)
  | .str s =>
    match item with
    | .str t => .ok (decide (t.toList.IsInfix s.toList))
    | _ => .error .typeError
  | .obj fields =>
    if item.hashable then .ok (fields.any fun field => item.eq same (.str field.1))
    else .error .typeError
  | .null | .bool _ | .num _ => .error .typeError

/-- A count, as a value to compare. -/
def ofNat (n : Nat) : Json := .num (some n)

/-! ## The checks -/

/-- `CALIBRATION_NOTE`. -/
def calibrationNote : String := "not reproduced; see docs/model-calibration.md"

/-- The note of the seeded checks. -/
def seededNote : String := "run `qkd-ekm-model all`"

/-- `_check`. -/
def check (name : String) (expected actual : Json) (ok : Bool) (note : String := "") :
    Check Cell where
  name
  expected := .value expected
  actual := .value actual
  result := .of ok
  note := if ok then "" else note

section

variable (same : Bool)

/-- Whether `detected` counts a row. -/
def counts (kind : String) (row : Json) : Except Raised Bool := do
  let rowKind ← subscript "kind" row
  if rowKind.eq same (.str kind) then
    let expectedCheck ← subscript "expected_check" row
    let detectedBy ← subscript "detected_by" row
    isIn same expectedCheck detectedBy
  else pure false

/-- The sum in `detected`. -/
def countRows (kind : String) : List Json → Except Raised Nat
  | [] => .ok 0
  | row :: rows => do
    let counted ← counts same kind row
    let rest ← countRows kind rows
    pure ((if counted then 1 else 0) + rest)

/-- `detected`. -/
def detected (kind : String) (rows : Json) : Except Raised Nat := do
  let rows ← elements rows
  countRows same kind rows

/-- A field of the report against one of the paper. -/
def fieldCheck (name : String) (report paper : Json) : Except Raised (Check Cell) := do
  let expected ← subscript name paper
  let actual ← getOr name .null report
  pure (check ("model." ++ name) expected actual (actual.eq same expected) calibrationNote)

/-- The length of a field of the report against a number of the paper. -/
def lengthCheck (name : String) (report paper : Json) : Except Raised (Check Cell) := do
  let expected ← subscript name paper
  let names ← getOr name (.arr []) report
  let actual ← length names
  pure (check ("model." ++ name) expected (ofNat actual) ((ofNat actual).eq same expected))

/-- The seeded cases of a kind that were detected. -/
def seededCheck (kind name : String) (rows paper : Json) :
    Except Raised (Check Cell) := do
  let expected ← subscript name paper
  let actual ← detected same kind rows
  pure (check ("model." ++ name ++ "_detected") expected (ofNat actual)
    ((ofNat actual).eq same expected) seededNote)

/-- `report.get("seeded", {}).get("rows", [])`. -/
def seededRows (report : Json) : Except Raised Json := do
  let seeded ← getOr "seeded" (.obj []) report
  getOr "rows" (.arr []) seeded

/-- The rows of `_model_checks`, in order. -/
def modelRows (report paper : Json) : Except Raised (List (Check Cell)) := do
  let rows ← seededRows report
  [fieldCheck same "states" report paper,
    fieldCheck same "transitions" report paper,
    fieldCheck same "max_depth" report paper,
    lengthCheck same "invariants" report paper,
    lengthCheck same "guards" report paper,
    seededCheck same "state" "seeded_states" rows paper,
    seededCheck same "transition" "seeded_transitions" rows paper].mapM id

/-- `_model_checks`. An unreadable report and a report `null` are both
`None`. -/
def modelChecks (results : String) (report : Option Json) (paper : Json) :
    Except Raised (List (Check Cell)) :=
  match report.getD .null with
  | .null => .ok
      [{ name := "model.report"
         expected := .text "readable json"
         actual := .text ("missing " ++ results ++ "/model/report.json")
         result := .fail
         note := "run `make model`" }]
  | report => modelRows same report paper

end

/-! ## What passing means -/

/-- All rows pass. -/
def AllPass (result : Except Raised (List (Check Cell))) : Prop :=
  ∃ rows, result = .ok rows ∧ ∀ row ∈ rows, row.result = .pass

/-- A check is made and passes. -/
def Succeeds (result : Except Raised (Check Cell)) : Prop :=
  ∃ row, result = .ok row ∧ row.result = .pass

section

variable (same : Bool) (report paper : Json)

/-- The seven numbers agree, as the code reads them. -/
structure Matches : Prop where
  counts : ∀ name ∈ ["states", "transitions", "max_depth"], ∃ expected actual,
    subscript name paper = .ok expected ∧ getOr name .null report = .ok actual ∧
      actual.eq same expected = true
  lengths : ∀ name ∈ ["invariants", "guards"], ∃ expected names n,
    subscript name paper = .ok expected ∧ getOr name (.arr []) report = .ok names ∧
      length names = .ok n ∧ (ofNat n).eq same expected = true
  seeded : ∀ seeds ∈ [("state", "seeded_states"), ("transition", "seeded_transitions")],
    ∃ expected rows n, subscript seeds.2 paper = .ok expected ∧ seededRows report = .ok rows ∧
      detected same seeds.1 rows = .ok n ∧ (ofNat n).eq same expected = true

end

section

variable {same : Bool} {name note kind : String} {report paper rows expected actual : Json}
  {ok : Bool}

theorem check_pass : (check name expected actual ok note).result = .pass ↔ ok = true :=
  verdict_of_pass

theorem succeeds_fieldCheck : Succeeds (fieldCheck same name report paper) ↔ ∃ expected actual,
    subscript name paper = .ok expected ∧ getOr name .null report = .ok actual ∧
      actual.eq same expected = true := by
  unfold Succeeds fieldCheck
  constructor
  · rintro ⟨row, hrow, hpass⟩
    obtain ⟨expected, hexpected, hrow⟩ := except_bind_eq_ok.mp hrow
    obtain ⟨actual, hactual, hrow⟩ := except_bind_eq_ok.mp hrow
    cases hrow
    exact ⟨expected, actual, hexpected, hactual, check_pass.mp hpass⟩
  · rintro ⟨expected, actual, hexpected, hactual, heq⟩
    rw [hexpected, hactual]
    exact ⟨_, rfl, check_pass.mpr heq⟩

theorem succeeds_lengthCheck : Succeeds (lengthCheck same name report paper) ↔
    ∃ expected names n, subscript name paper = .ok expected ∧
      getOr name (.arr []) report = .ok names ∧ length names = .ok n ∧
        (ofNat n).eq same expected = true := by
  unfold Succeeds lengthCheck
  constructor
  · rintro ⟨row, hrow, hpass⟩
    obtain ⟨expected, hexpected, hrow⟩ := except_bind_eq_ok.mp hrow
    obtain ⟨names, hnames, hrow⟩ := except_bind_eq_ok.mp hrow
    obtain ⟨n, hn, hrow⟩ := except_bind_eq_ok.mp hrow
    cases hrow
    exact ⟨expected, names, n, hexpected, hnames, hn, check_pass.mp hpass⟩
  · rintro ⟨expected, names, n, hexpected, hnames, hn, heq⟩
    refine ⟨check ("model." ++ name) expected (ofNat n) ((ofNat n).eq same expected), ?_,
      check_pass.mpr heq⟩
    simp only [hexpected, hnames, hn, bind, Except.bind, pure, Except.pure]

theorem succeeds_seededCheck : Succeeds (seededCheck same kind name rows paper) ↔
    ∃ expected n, subscript name paper = .ok expected ∧ detected same kind rows = .ok n ∧
      (ofNat n).eq same expected = true := by
  unfold Succeeds seededCheck
  constructor
  · rintro ⟨row, hrow, hpass⟩
    obtain ⟨expected, hexpected, hrow⟩ := except_bind_eq_ok.mp hrow
    obtain ⟨n, hn, hrow⟩ := except_bind_eq_ok.mp hrow
    cases hrow
    exact ⟨expected, n, hexpected, hn, check_pass.mp hpass⟩
  · rintro ⟨expected, n, hexpected, hn, heq⟩
    rw [hexpected, hn]
    exact ⟨_, rfl, check_pass.mpr heq⟩

theorem allPass_mapM {checks : List (Except Raised (Check Cell))} :
    AllPass (checks.mapM id) ↔ ∀ result ∈ checks, Succeeds result := by
  induction checks with
  | nil => exact ⟨fun _ _ h => (by cases h), fun _ => ⟨[], rfl, by simp⟩⟩
  | cons result checks ih =>
    rw [List.forall_mem_cons, ← ih, List.mapM_cons]
    constructor
    · rintro ⟨rows, hrows, hpass⟩
      obtain ⟨row, hrow, hrows⟩ := except_bind_eq_ok.mp hrows
      obtain ⟨rest, hrest, hrows⟩ := except_bind_eq_ok.mp hrows
      cases hrows
      rw [List.forall_mem_cons] at hpass
      exact ⟨⟨row, hrow, hpass.1⟩, ⟨rest, hrest, hpass.2⟩⟩
    · rintro ⟨⟨row, hrow, hpass⟩, ⟨rest, hrest, hpasses⟩⟩
      refine ⟨row :: rest, ?_, List.forall_mem_cons.mpr ⟨hpass, hpasses⟩⟩
      exact except_bind_eq_ok.mpr ⟨row, hrow, except_bind_eq_ok.mpr ⟨rest, hrest, rfl⟩⟩

theorem modelChecks_null (results : String) {report : Option Json}
    (hnull : report.getD .null = .null) : ¬ AllPass (modelChecks same results report paper) := by
  unfold modelChecks
  rw [hnull]
  rintro ⟨rows, hrows, hpass⟩
  cases hrows
  cases hpass _ (List.mem_cons_self ..)

theorem modelChecks_some (results : String) (hnull : report ≠ .null) :
    modelChecks same results (some report) paper = modelRows same report paper := by
  cases report with
  | null => exact absurd rfl hnull
  | bool b | num n | str s | arr items | obj fields => rfl

/-- A report that is no object has no fields to compare. -/
theorem Matches.ne_null (h : Matches same report paper) : report ≠ .null := by
  rintro rfl
  obtain ⟨_, _, _, hactual, _⟩ := h.counts "states" (by simp)
  cases hactual

theorem allPass_modelRows : AllPass (modelRows same report paper) ↔ Matches same report paper := by
  unfold modelRows
  rcases hrows : seededRows report with e | rows
  · constructor
    · rintro ⟨_, ⟨⟩, _⟩
    · intro h
      obtain ⟨_, _, _, _, hseeded, _⟩ := h.seeded _ (List.mem_cons_self ..)
      cases hrows.symm.trans hseeded
  · show AllPass (List.mapM id _) ↔ _
    rw [allPass_mapM]
    simp only [List.forall_mem_cons, succeeds_fieldCheck, succeeds_lengthCheck, succeeds_seededCheck]
    constructor
    · rintro ⟨hstates, htransitions, hdepth, hinvariants, hguards, hseeded, hseeded', hnil⟩
      have hseeds : ∀ {kind name}, (∃ expected n, subscript name paper = .ok expected ∧
          detected same kind rows = .ok n ∧ (ofNat n).eq same expected = true) →
            ∃ expected rows n, subscript name paper = .ok expected ∧ seededRows report = .ok rows ∧
              detected same kind rows = .ok n ∧ (ofNat n).eq same expected = true :=
        fun ⟨expected, n, hexpected, hn, heq⟩ => ⟨expected, rows, n, hexpected, hrows, hn, heq⟩
      constructor
      · simp only [List.forall_mem_cons]
        exact ⟨hstates, htransitions, hdepth, List.forall_mem_nil _⟩
      · simp only [List.forall_mem_cons]
        exact ⟨hinvariants, hguards, List.forall_mem_nil _⟩
      · simp only [List.forall_mem_cons]
        exact ⟨hseeds hseeded, hseeds hseeded', List.forall_mem_nil _⟩
    · intro h
      have hseeds : ∀ seeds ∈ [("state", "seeded_states"), ("transition", "seeded_transitions")],
          ∃ expected n, subscript seeds.2 paper = .ok expected ∧
            detected same seeds.1 rows = .ok n ∧ (ofNat n).eq same expected = true := by
        intro seeds hmem
        obtain ⟨expected, rows', n, hexpected, hrows', hn, heq⟩ := h.seeded seeds hmem
        cases hrows.symm.trans hrows'
        exact ⟨expected, n, hexpected, hn, heq⟩
      refine ⟨h.counts _ (by simp), h.counts _ (by simp), h.counts _ (by simp),
        h.lengths _ (by simp), h.lengths _ (by simp), ?_, ?_, List.forall_mem_nil _⟩
      · exact hseeds _ (List.mem_cons_self ..)
      · exact hseeds _ (List.mem_cons_of_mem _ (List.mem_cons_self ..))

/-- **All rows pass if the seven numbers agree.** -/
theorem allPass_iff (results : String) :
    AllPass (modelChecks same results (some report) paper) ↔ Matches same report paper := by
  by_cases hnull : report = .null
  · rw [hnull]
    exact ⟨fun h => absurd h (modelChecks_null results rfl), fun h => absurd rfl h.ne_null⟩
  · rw [modelChecks_some results hnull]
    exact allPass_modelRows

end

/-! ## The acceptance criteria -/

/-- The field of an object. -/
def field (name : String) : Json → Option Json
  | .obj fields => Fields.get? fields name
  | _ => none

/-- The names that a report lists; one without the field lists none. -/
def namesOf (name : String) (report : Json) : Option (List Json) :=
  match field name report with
  | none => some []
  | some (.arr names) => some names
  | some _ => none

/-- The items of a list. -/
def itemsOf : Json → List Json
  | .arr items => items
  | _ => []

/-- The seeded cases of a report. -/
def rowsOf (report : Json) : List Json :=
  itemsOf (((field "seeded" report).bind (field "rows")).getD .null)

/-- The list of violations is there, and empty. -/
def recordsNone (report : Json) : Prop :=
  field "violations" report = some (.arr []) ∨ field "violations" report = some (.num (some 0))

/-- What a row says of a case of this kind. -/
def caseOf (same : Bool) (kind : String) (row : Json) : Option (Json × Json) := do
  let rowKind ← field "kind" row
  let expectedCheck ← field "expected_check" row
  let detectedBy ← field "detected_by" row
  if rowKind.eq same (.str kind) then some (expectedCheck, detectedBy) else none

/-- The case is detected: its expected check is in the list of those that
detected it. -/
def detects (same : Bool) (kind : String) (row : Json) : Bool :=
  match caseOf same kind row with
  | some (expectedCheck, .arr detectedBy) =>
    detectedBy.any fun other => expectedCheck.eq same other
  | _ => false

/-- The case counts as detected although there is no such list: the
expected check is a part of a text, or the name of a field. -/
def detectsLoosely (same : Bool) (kind : String) (row : Json) : Bool :=
  match caseOf same kind row with
  | some (_, .arr _) => false
  | some (expectedCheck, detectedBy) => (isIn same expectedCheck detectedBy).toOption == some true
  | none => false

section

variable (same : Bool) (report paper : Json)

/-- The report meets the acceptance criteria. -/
structure Accepted : Prop where
  counts : ∀ name ∈ ["states", "transitions", "max_depth"], ∃ actual expected,
    field name report = some actual ∧ field name paper = some expected ∧
      actual.eq same expected = true
  names : ∀ name ∈ ["invariants", "guards"], ∃ names expected,
    namesOf name report = some names ∧ field name paper = some expected ∧
      (ofNat names.length).eq same expected = true
  violations : recordsNone report
  seeded : ∀ seeds ∈ [("state", "seeded_states"), ("transition", "seeded_transitions")],
    ∃ expected, field seeds.2 paper = some expected ∧
      (ofNat ((rowsOf report).countP (detects same seeds.1))).eq same expected = true

/-- What the comparison takes for granted about a report. -/
structure WellFormed : Prop where
  counts : ∀ name ∈ ["states", "transitions", "max_depth"], (field name report).isSome
  names : ∀ name ∈ ["invariants", "guards"], (namesOf name report).isSome
  violations : recordsNone report
  seeded : ∀ kind ∈ ["state", "transition"], ∀ row ∈ rowsOf report,
    detectsLoosely same kind row = false

end

section

variable {same : Bool} {name kind : String} {v x d expected : Json} {n : Nat}

theorem subscript_eq_ok : subscript name v = .ok x ↔ field name v = some x := by
  cases v with
  | obj fields =>
    show (match Fields.get? fields name with
      | some value => Except.ok value
      | none => .error Raised.keyError) = Except.ok x ↔ Fields.get? fields name = some x
    cases Fields.get? fields name <;> simp
  | null | bool b | num n | str s | arr items => exact ⟨by rintro ⟨⟩, by rintro ⟨⟩⟩

theorem getOr_eq_ok (h : getOr name d v = .ok x) : x = (field name v).getD d := by
  cases v with
  | obj fields =>
    cases h
    rfl
  | null | bool b | num n | str s | arr items => cases h

/-- A count equals a value only if that is this number. -/
theorem ofNat_eq : (ofNat n).eq same expected = true ↔ some (some (n : Rat)) = expected.number := by
  have hscalar : (ofNat n).eq same expected = (ofNat n).eqScalar same expected := by
    cases expected <;> simp [ofNat, Json.eq]
  rw [hscalar]
  cases expected with
  | num m => cases m <;> simp [ofNat, Json.eqScalar, Json.number]
  | bool b => simp [ofNat, Json.eqScalar, Json.number]
  | null | str s | arr items | obj fields => simp [ofNat, Json.eqScalar, Json.number]

theorem ofNat_eq_unique {m : Nat} (hm : (ofNat m).eq same expected = true) :
    (ofNat n).eq same expected = true ↔ n = m := by
  rw [ofNat_eq] at hm ⊢
  rw [← hm, Option.some.injEq, Option.some.injEq, Rat.natCast_inj]

/-- A row is counted if its case is detected, in either way. -/
theorem counts_eq_ok {row : Json} {counted : Bool} (h : counts same kind row = .ok counted) :
    counted = (detects same kind row || detectsLoosely same kind row) ∧
      (detects same kind row && detectsLoosely same kind row) = false := by
  obtain ⟨rowKind, hkind, h⟩ := except_bind_eq_ok.mp h
  rw [subscript_eq_ok] at hkind
  unfold detects detectsLoosely caseOf
  simp only [hkind, Option.bind_eq_bind, Option.bind_some]
  by_cases hsame : rowKind.eq same (.str kind) = true
  · rw [if_pos hsame] at h
    obtain ⟨expectedCheck, hcheck, h⟩ := except_bind_eq_ok.mp h
    obtain ⟨detectedBy, hdetected, h⟩ := except_bind_eq_ok.mp h
    rw [subscript_eq_ok] at hcheck hdetected
    simp only [hcheck, hdetected, Option.bind_some, if_pos hsame]
    cases detectedBy with
    | arr items =>
      cases h
      simp
    | null | bool b | num n | str s | obj fields => simp [h, Except.toOption]
  · rw [if_neg hsame] at h
    cases h
    rcases field "expected_check" row with _ | expectedCheck
    · simp
    · rcases field "detected_by" row with _ | detectedBy <;> simp [hsame]

/-- **The count is that of both kinds of detection.** -/
theorem countRows_eq_ok {rows : List Json} (h : countRows same kind rows = .ok n) :
    n = rows.countP (detects same kind) + rows.countP (detectsLoosely same kind) := by
  induction rows generalizing n with
  | nil =>
    cases h
    rfl
  | cons row rows ih =>
    obtain ⟨counted, hcounted, h⟩ := except_bind_eq_ok.mp h
    obtain ⟨rest, hrest, h⟩ := except_bind_eq_ok.mp h
    cases h
    obtain ⟨hor, hand⟩ := counts_eq_ok hcounted
    rw [ih hrest, List.countP_cons, List.countP_cons, hor]
    cases hd : detects same kind row <;> cases hl : detectsLoosely same kind row <;>
      simp_all <;> omega

/-- A loop over a text reads no row, unless it raises. -/
theorem countRows_strings {names : List String}
    (h : countRows same kind (names.map .str) = .ok n) : n = 0 := by
  cases names with
  | nil =>
    cases h
    rfl
  | cons name names => cases h

theorem rowsOf_eq {report rows : Json} (h : seededRows report = .ok rows) :
    rowsOf report = itemsOf rows := by
  obtain ⟨seeded, hseeded, hrows⟩ := except_bind_eq_ok.mp h
  have hseeded := getOr_eq_ok hseeded
  have hrows := getOr_eq_ok hrows
  unfold rowsOf
  rcases hfield : field "seeded" report with _ | seeded'
  · rw [hfield] at hseeded
    rw [hrows, hseeded]
    rfl
  · rw [hfield] at hseeded
    obtain rfl : seeded = seeded' := hseeded
    rw [Option.bind_some, hrows]
    cases field "rows" seeded <;> rfl

theorem detected_eq_ok {report rows : Json} (hrows : seededRows report = .ok rows)
    (h : detected same kind rows = .ok n) : n = (rowsOf report).countP (detects same kind) +
      (rowsOf report).countP (detectsLoosely same kind) := by
  obtain ⟨items, hitems, h⟩ := except_bind_eq_ok.mp h
  rw [rowsOf_eq hrows]
  cases rows with
  | arr rows =>
    cases hitems
    exact countRows_eq_ok h
  | str s =>
    cases hitems
    have hstrings : s.toList.map (fun c => Json.str (String.singleton c)) =
        (s.toList.map String.singleton).map .str := by simp
    rw [hstrings] at h
    exact countRows_strings h
  | obj fields =>
    cases hitems
    exact countRows_strings h
  | null | bool b | num n => cases hitems

/-- The length of what is listed, where that is a list or missing. -/
theorem length_namesOf {report listed : Json} {names : List Json}
    (hnames : namesOf name report = some names) (hlisted : getOr name (.arr []) report = .ok listed)
    (hn : length listed = .ok n) : n = names.length := by
  have hlisted := getOr_eq_ok hlisted
  unfold namesOf at hnames
  rcases hfield : field name report with _ | value
  · rw [hfield] at hnames hlisted
    cases hnames
    rw [hlisted] at hn
    cases hn
    rfl
  · rw [hfield] at hnames hlisted
    cases value with
    | arr items =>
      cases hnames
      rw [hlisted] at hn
      cases hn
      rfl
    | null | bool b | num n | str s | obj fields => cases hnames

/-- A number of cases is right exactly if none is counted loosely. -/
theorem countP_detects {report rows : Json} (hrows : seededRows report = .ok rows)
    (hn : detected same kind rows = .ok n) (heq : (ofNat n).eq same expected = true) :
    (ofNat ((rowsOf report).countP (detects same kind))).eq same expected = true ↔
      ∀ row ∈ rowsOf report, detectsLoosely same kind row = false := by
  have hnone : (rowsOf report).countP (detectsLoosely same kind) = 0 ↔
      ∀ row ∈ rowsOf report, detectsLoosely same kind row = false := by
    simp only [List.countP_eq_zero, Bool.not_eq_true]
  rw [ofNat_eq_unique heq, detected_eq_ok hrows hn, ← hnone]
  omega

end

section

variable {same : Bool} {report paper : Json}

/-- A report that meets the criteria is of the form that the comparison
takes for granted. -/
theorem Matches.wellFormed (h : Matches same report paper) (ha : Accepted same report paper) :
    WellFormed same report := by
  have hseeds : ∀ seeds ∈ [("state", "seeded_states"), ("transition", "seeded_transitions")],
      ∀ row ∈ rowsOf report, detectsLoosely same seeds.1 row = false := by
    intro seeds hmem
    obtain ⟨expected, rows, n, hexpected, hrows, hn, heq⟩ := h.seeded seeds hmem
    obtain ⟨expected', hexpected', heq'⟩ := ha.seeded seeds hmem
    rw [subscript_eq_ok, hexpected'] at hexpected
    cases hexpected
    exact (countP_detects hrows hn heq).mp heq'
  refine ⟨fun name hname => ?_, fun name hname => ?_, ha.violations, fun kind hkind => ?_⟩
  · obtain ⟨_, _, hfield, _⟩ := ha.counts name hname
    exact Option.isSome_of_eq_some hfield
  · obtain ⟨_, _, hnames, _⟩ := ha.names name hname
    exact Option.isSome_of_eq_some hnames
  · rcases List.mem_pair.mp hkind with rfl | rfl
    · exact hseeds ("state", "seeded_states") (by simp)
    · exact hseeds ("transition", "seeded_transitions") (by simp)

/-- One of that form, whose numbers agree, meets them. -/
theorem Matches.accepted (h : Matches same report paper) (hw : WellFormed same report) :
    Accepted same report paper := by
  refine ⟨fun name hname => ?_, fun name hname => ?_, hw.violations, fun seeds hmem => ?_⟩
  · obtain ⟨expected, actual, hexpected, hactual, heq⟩ := h.counts name hname
    obtain ⟨actual', hfield⟩ := Option.isSome_iff_exists.mp (hw.counts name hname)
    have hactual := getOr_eq_ok hactual
    rw [hfield] at hactual
    obtain rfl : actual = actual' := hactual
    exact ⟨actual, expected, hfield, subscript_eq_ok.mp hexpected, heq⟩
  · obtain ⟨expected, listed, n, hexpected, hlisted, hn, heq⟩ := h.lengths name hname
    obtain ⟨names, hnames⟩ := Option.isSome_iff_exists.mp (hw.names name hname)
    exact ⟨names, expected, hnames, subscript_eq_ok.mp hexpected,
      length_namesOf hnames hlisted hn ▸ heq⟩
  · obtain ⟨expected, rows, n, hexpected, hrows, hn, heq⟩ := h.seeded seeds hmem
    have hkind : seeds.1 ∈ ["state", "transition"] := List.mem_map_of_mem (f := Prod.fst) hmem
    exact ⟨expected, subscript_eq_ok.mp hexpected,
      (countP_detects hrows hn heq).mpr (hw.seeded seeds.1 hkind)⟩

/-- **Where the numbers agree, the criteria are met if and only if the
report is of the form that the comparison takes for granted.** -/
theorem Matches.accepted_iff (h : Matches same report paper) :
    Accepted same report paper ↔ WellFormed same report :=
  ⟨h.wellFormed, h.accepted⟩

end

/-- **Passing means that the criteria hold exactly where** a number
differs or the report is of the form that the comparison takes for
granted: nothing else compares the violations with anything. -/
theorem model_checks_accept_iff (same : Bool) (results : String) (report : Option Json)
    (paper : Json) :
    (AllPass (modelChecks same results report paper) →
        ∃ r, report = some r ∧ Accepted same r paper) ↔
      ∀ r, report = some r → Matches same r paper → WellFormed same r := by
  cases report with
  | none =>
    exact ⟨fun _ => by rintro _ ⟨⟩, fun _ h => absurd h (modelChecks_null results rfl)⟩
  | some r =>
    rw [allPass_iff]
    constructor
    · intro h r' heq hm
      cases heq
      obtain ⟨_, ⟨⟩, ha⟩ := h hm
      exact hm.accepted_iff.mp ha
    · exact fun h hm => ⟨r, rfl, hm.accepted_iff.mpr (h r rfl hm)⟩

/-- A report with a violation, and the numbers of one. -/
def violated : Json := .obj
  [("states", ofNat 1), ("transitions", ofNat 1), ("max_depth", ofNat 0),
    ("violations", .arr [.obj [("kind", .str "invariant"), ("state", ofNat 0)]])]

/-- The published numbers that it agrees with. -/
def publishedOne : Json := .obj
  [("states", ofNat 1), ("transitions", ofNat 1), ("max_depth", ofNat 0), ("invariants", ofNat 0),
    ("guards", ofNat 0), ("seeded_states", ofNat 0), ("seeded_transitions", ofNat 0)]

/-- **A report with a violation passes.** -/
theorem model_checks_pass_violated : ¬ ∀ (same : Bool) (results : String) (report : Option Json)
    (paper : Json), AllPass (modelChecks same results report paper) →
      ∃ r, report = some r ∧ Accepted same r paper := by
  intro h
  have hpass : AllPass (modelChecks false "results" (some violated) publishedOne) := by
    refine ⟨_, rfl, ?_⟩
    decide
  obtain ⟨_, ⟨⟩, haccepted⟩ := h _ _ _ _ hpass
  rcases haccepted.violations with hnone | hnone <;> cases hnone

end QkdEkm.Scripts
