import Mathlib.Algebra.GroupWithZero.Nat
import Mathlib.Algebra.Order.BigOperators.Group.List
import Mathlib.Data.List.Forall2
import Mathlib.Data.List.Induction
import QkdEkm.Lib.Dict
import QkdEkm.Lib.Greedy
import QkdEkm.Lib.Text
import QkdEkm.Scripts.Timestamp

/-!
# Compare — the check of the transcripts

A transcript is read as one list of events for each component, and the
expected events of a component are looked for, in order, among its actual
ones. Nothing relates the events of different components.
-/

namespace QkdEkm.Scripts

open QkdEkm.Lib QkdEkm.Lib.Regex

/-- The result of a check. -/
inductive Verdict
  | pass
  | fail
  deriving DecidableEq, Repr

def Verdict.of (ok : Bool) : Verdict := if ok then .pass else .fail

/-- A row of the comparison. `V` is what stands in the columns of the
expected and the actual value. -/
structure Check (V : Type) where
  name : String
  expected : V
  actual : V
  result : Verdict
  note : String := ""
  deriving DecidableEq, Repr

abbrev Line := List Char

section

variable (cc : CharClass)

/-- `_TIMESTAMP`, with the white space behind the timestamp. -/
def leadingTimestamp : Regex := seq start (seq (timestampBody cc) (many cc.space))

/-- `_COMPONENT`. -/
def componentPrefix : Regex := seq start (seq (atLeast Char.isAlpha 1) (lit ": "))

/-- What `_events` makes of a line. -/
def eventOf (line : Line) : Line := strip ((leadingTimestamp cc).sub [] line)

/-- `_events`, line by line. -/
def events (lines : List Line) : List Line :=
  (lines.filter fun line => strip line ≠ []).map (eventOf cc)

/-- The group of `_COMPONENT` in an event; two characters follow it. -/
def componentOf (event : Line) : Option Line :=
  (componentPrefix.matchLength [] event).map fun n => event.take (n - 2)

/-- `_by_component`. -/
def byComponent (events : List Line) : Dict Line (List Line) :=
  events.foldl (fun grouped event =>
    match componentOf event with
    | some component =>
      grouped.assign component ((grouped.lookup component).getD [] ++ [event])
    | none => grouped) ∅

/-- `_matched_prefix`. -/
def matchedPrefix (expected actual : List Line) : Nat :=
  actual.foldl (fun matched event =>
    if expected[matched]? = some event then matched + 1 else matched) 0

/-! ## The rows -/

/-- The row of one component. -/
def componentRow (name : String) (component : Line) (events : List Line) (matched : Nat) :
    Check String where
  name := name ++ "." ++ String.ofList component
  expected := toString events.length ++ " events in order"
  actual := toString matched ++ " of " ++ toString events.length ++ " matched"
  result := .of (matched = events.length)
  note :=
    match events[matched]? with
    | some event => "first missing event: " ++ String.ofList event
    | none => ""

/-- The row of the scenario. -/
def summaryRow (name : String) (total matchedTotal : Nat) : Check String where
  name := name ++ ".sequence"
  expected := toString total ++ " events in order"
  actual := toString matchedTotal ++ " of " ++ toString total ++ " matched"
  result := .of (matchedTotal = total)
  note := if matchedTotal = total then "" else "see the per-component rows above"

/-- `_sequence_checks`, on the lines of two transcripts. -/
def sequenceRows (name : String) (expected actual : List Line) : List (Check String) :=
  let expected := (byComponent (events cc expected)).items
  let actual := byComponent (events cc actual)
  let total := (expected.map fun item => item.2.length).sum
  let matched := fun item : Line × List Line =>
    matchedPrefix item.2 ((actual.lookup item.1).getD [])
  (expected.map fun item => componentRow name item.1 item.2 (matched item)) ++
    [summaryRow name total (expected.map matched).sum]

/-- `_sequence_checks`. -/
def sequenceChecks (name results : String) (expected : List Char) (actual : Option (List Char)) :
    List (Check String) :=
  match actual with
  | none =>
    let expected := (byComponent (events cc (splitlines expected))).items
    [{ name := name ++ ".sequence"
       expected := toString (expected.map fun item => item.2.length).sum ++ " events in order"
       actual := "missing " ++ results ++ "/transcripts/" ++ name ++ ".txt"
       result := .fail
       note := "capture and redact the scenario transcript" }]
  | some actual => sequenceRows cc name (splitlines expected) (splitlines actual)

end

/-! ## Grouping -/

/-- The events of one component, in order. -/
def ofComponent (component : Line) (events : List Line) : List Line :=
  events.filter fun event => componentOf event = some component

/-- **A component is grouped if it has events, with all of them.** -/
theorem lookup_byComponent (events : List Line) (component : Line) :
    (byComponent events).lookup component =
      if ofComponent component events = [] then none else some (ofComponent component events) := by
  induction events using List.reverseRecOn with
  | nil => rfl
  | append_singleton events event ih =>
    have hsplit : ofComponent component (events ++ [event]) =
        ofComponent component events ++ ofComponent component [event] := List.filter_append ..
    rw [hsplit, byComponent, List.foldl_append]
    change (match componentOf event with
      | some component => (byComponent events).assign component
          (((byComponent events).lookup component).getD [] ++ [event])
      | none => byComponent events).lookup component = _
    rcases hevent : componentOf event with _ | c
    · have hnone : ofComponent component [event] = [] := by simp [ofComponent, hevent]
      rw [hnone, List.append_nil]
      exact ih
    · rw [Dict.lookup_assign]
      by_cases hc : component = c
      · subst hc
        have hone : ofComponent component [event] = [event] := by simp [ofComponent, hevent]
        have hne : ofComponent component events ++ [event] ≠ [] := by simp
        rw [if_pos rfl, hone, if_neg hne, ih]
        split
        · rename_i hempty
          rw [hempty]
          rfl
        · rfl
      · have hnone : ofComponent component [event] = [] := by
          simp [ofComponent, hevent, Ne.symm hc]
        rw [if_neg hc, hnone, List.append_nil]
        exact ih

theorem lookup_byComponent_getD (events : List Line) (component : Line) :
    ((byComponent events).lookup component).getD [] = ofComponent component events := by
  rw [lookup_byComponent]
  split
  · rename_i hempty
    rw [hempty]
    rfl
  · rfl

theorem mem_items_byComponent {events : List Line} {component : Line} {own : List Line} :
    (component, own) ∈ (byComponent events).items ↔
      own = ofComponent component events ∧ own ≠ [] := by
  rw [Dict.mem_items, lookup_byComponent]
  split
  · rename_i hempty
    rw [hempty]
    exact ⟨by rintro ⟨⟩, fun ⟨h, hne⟩ => absurd h hne⟩
  · rename_i hne
    constructor
    · rintro ⟨⟩
      exact ⟨rfl, hne⟩
    · rintro ⟨rfl, _⟩
      rfl

/-! ## The sum of the rows -/

/-- Bounded terms reach the sum of their bounds only one by one. -/
theorem sum_eq_iff {α : Type} {l : List α} {f g : α → Nat} (hle : ∀ a ∈ l, f a ≤ g a) :
    (l.map f).sum = (l.map g).sum ↔ ∀ a ∈ l, f a = g a := by
  constructor
  · intro heq a ha
    by_contra hne
    have hlt := List.sum_lt_sum f g hle ⟨a, ha, lt_of_le_of_ne (hle a ha) hne⟩
    exact absurd heq (ne_of_lt hlt)
  · intro h
    rw [List.map_congr_left h]

/-! ## The matcher -/

theorem matchedPrefix_eq_greedy (e a : List Line) : matchedPrefix e a = greedy e a := by
  show greedyFrom e 0 a = _
  rw [greedyFrom_eq, Nat.zero_add, List.drop_zero]

section

variable {cc : CharClass} {name : String} {expected actual actual' : List Line}

/-- The events of a component in a transcript. -/
def project (cc : CharClass) (lines : List Line) (component : Line) : List Line :=
  ofComponent component (events cc lines)

/-- The rows, over the projections. -/
theorem sequenceRows_eq (actual : List Line) : sequenceRows cc name expected actual =
    let items := (byComponent (events cc expected)).items
    let matched := fun item : Line × List Line => greedy item.2 (project cc actual item.1)
    (items.map fun item => componentRow name item.1 item.2 (matched item)) ++
      [summaryRow name (items.map fun item => item.2.length).sum (items.map matched).sum] := by
  simp only [sequenceRows, matchedPrefix_eq_greedy, lookup_byComponent_getD]
  rfl

theorem verdict_of_pass {ok : Bool} : Verdict.of ok = .pass ↔ ok = true := by
  cases ok <;> simp [Verdict.of]

/-- All expected events are matched if each component's are. -/
theorem matched_all_iff {items : List (Line × List Line)} (actualOf : Line → List Line) :
    (items.map fun item => greedy item.2 (actualOf item.1)).sum =
        (items.map fun item => item.2.length).sum ↔
      ∀ item ∈ items, item.2.Sublist (actualOf item.1) := by
  rw [sum_eq_iff fun _ _ => greedy_le_length]
  simp only [greedy_eq_length]

theorem project_sublist (h : actual.Sublist actual') (component : Line) :
    (project cc actual component).Sublist (project cc actual' component) :=
  ((h.filter _).map _).filter _

/-- Rows that ask for the same, and pass where the others did. -/
structure StillPasses (row row' : Check String) : Prop where
  name : row'.name = row.name
  expected : row'.expected = row.expected
  result : row.result = .pass → row'.result = .pass

theorem componentRow_pass {component : Line} {own : List Line} {matched : Nat} :
    (componentRow name component own matched).result = .pass ↔ matched = own.length := by
  rw [componentRow, verdict_of_pass, decide_eq_true_eq]

theorem summaryRow_pass {total matched : Nat} :
    (summaryRow name total matched).result = .pass ↔ matched = total := by
  rw [summaryRow, verdict_of_pass, decide_eq_true_eq]

variable (cc name expected) in
/-- **The scenario passes if every component has its events in order.** -/
theorem summary_pass_iff (actual : List Line) :
    (∀ row ∈ (sequenceRows cc name expected actual).getLast?, row.result = .pass) ↔
      ∀ component, (project cc expected component).Sublist (project cc actual component) := by
  rw [sequenceRows_eq]
  simp only [List.getLast?_concat, Option.mem_some_iff, forall_eq', summaryRow_pass]
  rw [matched_all_iff (project cc actual)]
  constructor
  · intro h component
    by_cases hempty : project cc expected component = []
    · rw [hempty]
      exact List.nil_sublist _
    · exact h (component, _) (mem_items_byComponent.mpr ⟨rfl, hempty⟩)
  · rintro h ⟨component, own⟩ hitem
    obtain ⟨rfl, _⟩ := mem_items_byComponent.mp hitem
    exact h component

/-- **More lines turn no pass into a failure.** -/
theorem still_passes (h : actual.Sublist actual') : List.Forall₂ StillPasses
    (sequenceRows cc name expected actual) (sequenceRows cc name expected actual') := by
  rw [sequenceRows_eq, sequenceRows_eq]
  refine List.rel_append ?_ (.cons ⟨rfl, rfl, ?_⟩ .nil)
  · rw [List.forall₂_map_left_iff, List.forall₂_map_right_iff, List.forall₂_same]
    rintro ⟨component, own⟩ _
    refine ⟨rfl, rfl, ?_⟩
    rw [componentRow_pass, componentRow_pass, greedy_eq_length, greedy_eq_length]
    exact fun hown => hown.trans (project_sublist h component)
  · rw [summaryRow_pass, summaryRow_pass, matched_all_iff, matched_all_iff]
    exact fun hall item hitem => (hall item hitem).trans (project_sublist h item.1)

/-! ## What the projections do not see -/

/-- An event is what stands behind the timestamp and its white space. -/
theorem eventOf_timestamp {ts : Line} (h : IsTimestamp cc ts) (rest : Line) :
    eventOf cc (ts ++ rest) = strip (rest.dropWhile cc.space) := by
  have hends : (seq (timestampBody cc) (many cc.space)).ends [] (ts ++ rest) =
      manyEnds cc.space (ts.reverse ++ []) rest := by
    rw [ends, ends_of_fixed timestampBody_fixed h, List.flatMap_singleton]
    rfl
  have hlength : (leadingTimestamp cc).matchLength [] (ts ++ rest) =
      some (ts.length + (rest.takeWhile cc.space).length) := by
    have hrest := congrArg List.length (List.takeWhile_append_dropWhile (p := cc.space) (l := rest))
    rw [List.length_append] at hrest
    rw [leadingTimestamp, start_matchLength, matchLength, hends, head?_manyEnds, Option.map_some,
      List.length_append]
    dsimp only
    exact congrArg some (by omega)
  have hpos : 0 < ts.length := List.length_pos_iff.mpr h.ne_nil
  obtain ⟨n, hn⟩ := Nat.exists_eq_add_one_of_ne_zero
    (show ts.length + (rest.takeWhile cc.space).length ≠ 0 by omega)
  have hsub : (leadingTimestamp cc).sub [] (ts ++ rest) = (ts ++ rest).drop (n + 1) := by
    rw [leadingTimestamp, sub_start, ← leadingTimestamp, hlength, hn]
    rfl
  have hsplit : ts ++ rest = (ts ++ rest.takeWhile cc.space) ++ rest.dropWhile cc.space := by
    rw [List.append_assoc, List.takeWhile_append_dropWhile]
  rw [eventOf, hsub, ← hn, hsplit, List.drop_left' (List.length_append ..)]

/-- Changing the timestamps changes no event. -/
theorem eventOf_retimed {ts ts' : Line} (h : IsTimestamp cc ts) (h' : IsTimestamp cc ts')
    (rest : Line) : eventOf cc (ts ++ rest) = eventOf cc (ts' ++ rest) := by
  rw [eventOf_timestamp h, eventOf_timestamp h']

/-- A line without a component is in no projection. -/
theorem project_unparsable {line : Line} (h : componentOf (eventOf cc line) = none)
    (before after : List Line) (component : Line) :
    project cc (before ++ line :: after) component = project cc (before ++ after) component := by
  have hnone : project cc [line] component = [] := by
    unfold project events ofComponent
    by_cases hblank : strip line = [] <;> simp [hblank, h]
  have happend : ∀ l l' : List Line, project cc (l ++ l') component =
      project cc l component ++ project cc l' component := by
    intro l l'
    simp [project, events, ofComponent]
  rw [← List.singleton_append, happend, happend, hnone, List.nil_append, happend]

end

/-- **The transcript check decides exactly the order within each
component.** The matcher is optimal, the scenario passes if and only if
each component's expected events are a subsequence of its actual ones,
the rows depend on the projections only, and more lines turn no pass into
a failure. -/
theorem sequence_check_exact (cc : CharClass) (name : String) (expected : List Line) :
    (∀ e a, IsGreatest {k | k ≤ e.length ∧ (e.take k).Sublist a} (matchedPrefix e a)) ∧
    (∀ actual, ∃ rows row, sequenceRows cc name expected actual = rows ++ [row] ∧
      row.name = name ++ ".sequence" ∧
      (row.result = .pass ↔
        ∀ component, (project cc expected component).Sublist (project cc actual component))) ∧
    (∀ actual actual', project cc actual = project cc actual' →
      sequenceRows cc name expected actual = sequenceRows cc name expected actual') ∧
    (∀ actual actual', actual.Sublist actual' → List.Forall₂ StillPasses
      (sequenceRows cc name expected actual) (sequenceRows cc name expected actual')) := by
  refine ⟨fun e a => ?_, fun actual => ?_, fun actual actual' h => ?_, fun _ _ => still_passes⟩
  · rw [matchedPrefix_eq_greedy]
    exact greedy_isGreatest e a
  · have hpass := summary_pass_iff cc name expected actual
    rw [sequenceRows_eq] at hpass ⊢
    refine ⟨_, _, rfl, rfl, ?_⟩
    simpa using hpass
  · rw [sequenceRows_eq, sequenceRows_eq, h]

/-- A transcript with one line, and the same with another in front. -/
theorem sequence_check_one_more : List.Forall₂ StillPasses
    (sequenceRows .ascii "s1" ["EKM: up".toList] ["EKM: up".toList])
    (sequenceRows .ascii "s1" ["EKM: up".toList] ["VPN: up".toList, "EKM: up".toList]) :=
  (sequence_check_exact .ascii "s1" ["EKM: up".toList]).2.2.2 _ _
    (List.sublist_cons_self _ _)

end QkdEkm.Scripts
