import Mathlib.Data.List.Induction
import Mathlib.Data.Nat.Find

/-!
# Latch — an edge detector over a history of looks

A latch remembers the level it saw last and is set when it sees the
level rise; a clear resets it and may come at any time. What it has in
the end is a property of the whole history: it is set exactly if nothing
cleared it since the most recent rise (`set_iff_uncleared`), and a latch
that once saw the level low and now sees it high with nothing set was
cleared in between (`cleared_of_low`).
-/

namespace QkdEkm.Lib

/-- A sample of the level, or a clear. -/
inductive Look
  | sample (level : Bool)
  | clear
  deriving DecidableEq

structure Latch where
  seen : Bool
  set : Bool

def Latch.look (l : Latch) : Look → Latch
  | .sample level => { seen := level, set := l.set || (level && !l.seen) }
  | .clear => { l with set := false }

/-- A history ends with a sample of `level` and clears after it. -/
def LastSeen (h : List Look) (level : Bool) : Prop :=
  ∃ before clears, (∀ x ∈ clears, x = .clear) ∧ h = before ++ .sample level :: clears

/-- Two consecutive samples of a history saw the level low and then
high, and `rest` came after. -/
def Rise (h rest : List Look) : Prop :=
  ∃ past, LastSeen past false ∧ h = past ++ .sample true :: rest

/-- Nothing was cleared since the most recent rise. -/
def Uncleared (h : List Look) : Prop :=
  ∃ rest, Rise h rest ∧ (∀ rest', Rise h rest' → rest.length ≤ rest'.length) ∧ .clear ∉ rest

section

variable {h rest : List Look} {level : Bool}

theorem lastSeen_sample : LastSeen (h ++ [.sample level]) level :=
  ⟨h, [], by rintro _ ⟨⟩, rfl⟩

theorem LastSeen.clear (hl : LastSeen h level) : LastSeen (h ++ [.clear]) level := by
  obtain ⟨before, clears, hc, rfl⟩ := hl
  refine ⟨before, clears ++ [.clear], ?_, by simp⟩
  intro x hx
  rcases List.mem_append.mp hx with hx | hx
  · exact hc x hx
  · exact List.mem_singleton.mp hx

/-- A history ends with one level only. -/
theorem LastSeen.unique {level' : Bool} (hl : LastSeen h level) (hl' : LastSeen h level') :
    level = level' := by
  obtain ⟨before, clears, hc, rfl⟩ := hl
  obtain ⟨before', clears', hc', heq⟩ := hl'
  induction clears using List.reverseRecOn generalizing before' clears' with
  | nil =>
    rcases List.eq_nil_or_concat clears' with rfl | ⟨ys, y, rfl⟩
    · simpa using (List.append_inj' heq rfl).2
    · have hcat : before ++ [Look.sample level] = (before' ++ .sample level' :: ys) ++ [y] := by
        simpa using heq
      have hy := List.head_eq_of_cons_eq (List.append_inj' hcat rfl).2
      cases hy.trans (hc' y (by simp))
  | append_singleton xs x ih =>
    rcases List.eq_nil_or_concat clears' with rfl | ⟨ys, y, rfl⟩
    · have hcat : (before ++ .sample level :: xs) ++ [x] = before' ++ [Look.sample level'] := by
        simpa using heq
      have hx := List.head_eq_of_cons_eq (List.append_inj' hcat rfl).2
      cases hx.symm.trans (hc x (by simp))
    · have hcat : (before ++ .sample level :: xs) ++ [x] =
          (before' ++ .sample level' :: ys) ++ [y] := by
        simpa using heq
      exact ih (fun z hz => hc z (by simp [hz])) before' ys (fun z hz => hc' z (by simp [hz]))
        (List.append_inj' hcat rfl).1

theorem Rise.append (hr : Rise h rest) (x : Look) : Rise (h ++ [x]) (rest ++ [x]) := by
  obtain ⟨past, hl, rfl⟩ := hr
  exact ⟨past, hl, by simp⟩

theorem rise_of_low (hl : LastSeen h false) : Rise (h ++ [.sample true]) [] := ⟨h, hl, rfl⟩

/-- A rise in a longer history was one before, or ends it. -/
theorem rise_append {x : Look} (hr : Rise (h ++ [x]) rest) :
    (∃ r, rest = r ++ [x] ∧ Rise h r) ∨ (rest = [] ∧ x = .sample true ∧ LastSeen h false) := by
  obtain ⟨past, hl, heq⟩ := hr
  rcases List.eq_nil_or_concat rest with rfl | ⟨r, y, rfl⟩
  · obtain ⟨rfl, hx⟩ := List.append_inj' heq rfl
    exact .inr ⟨rfl, List.head_eq_of_cons_eq hx, hl⟩
  · have hcat : h ++ [x] = (past ++ .sample true :: r) ++ [y] := by simpa using heq
    obtain ⟨rfl, hx⟩ := List.append_inj' hcat rfl
    exact .inl ⟨r, by rw [List.head_eq_of_cons_eq hx, List.concat_eq_append], past, hl, rfl⟩

/-- What follows an earlier rise ends with what follows a later one. -/
theorem Rise.suffix {rest' : List Look} (hr : Rise h rest) (hr' : Rise h rest')
    (hle : rest'.length ≤ rest.length) : rest' <:+ rest := by
  obtain ⟨past, _, hh⟩ := hr
  obtain ⟨past', _, hh'⟩ := hr'
  have hrest : rest <:+ h := ⟨past ++ [.sample true], by simp [hh]⟩
  have hrest' : rest' <:+ h := ⟨past' ++ [.sample true], by simp [hh']⟩
  exact List.suffix_of_suffix_length_le hrest' hrest hle

theorem uncleared_iff : Uncleared h ↔ ∃ rest, Rise h rest ∧ .clear ∉ rest := by
  constructor
  · rintro ⟨rest, hr, _, hc⟩
    exact ⟨rest, hr, hc⟩
  · rintro ⟨rest, hr, hc⟩
    -- the shortest rest is a suffix of this one
    classical
    have hex : ∃ n, ∃ rest', Rise h rest' ∧ rest'.length = n := ⟨_, rest, hr, rfl⟩
    obtain ⟨short, hs, hlen⟩ := Nat.find_spec hex
    have hmin : ∀ rest', Rise h rest' → short.length ≤ rest'.length := fun rest' hr' =>
      hlen ▸ Nat.find_min' hex ⟨rest', hr', rfl⟩
    exact ⟨short, hs, hmin, fun hmem => hc ((hr.suffix hs (hmin rest hr)).subset hmem)⟩

/-! ## The latch against its history -/

/-- The latch has seen the history. -/
structure Latched (l : Latch) (h : List Look) : Prop where
  seen : LastSeen h l.seen
  set : l.set = true ↔ ∃ rest, Rise h rest ∧ .clear ∉ rest

/-- A latch starts with its first sample, and nothing is set. -/
theorem latched_start (level : Bool) : Latched ⟨level, false⟩ [.sample level] where
  seen := ⟨[], [], by rintro _ ⟨⟩, rfl⟩
  set := by
    refine ⟨by rintro ⟨⟩, ?_⟩
    rintro ⟨rest, ⟨past, ⟨before, clears, _, rfl⟩, heq⟩, _⟩
    have := congrArg List.length heq
    simp only [List.length_append, List.length_cons, List.length_nil] at this
    omega

/-- **A look keeps the latch and its history together.** -/
theorem Latched.look {l : Latch} (hl : Latched l h) (x : Look) :
    Latched (l.look x) (h ++ [x]) := by
  cases x with
  | clear =>
    refine ⟨hl.seen.clear, by rintro ⟨⟩, ?_⟩
    rintro ⟨rest, hr, hc⟩
    rcases rise_append hr with ⟨r, rfl, _⟩ | ⟨_, ⟨⟩, _⟩
    exact absurd (by simp) hc
  | sample level =>
    refine ⟨lastSeen_sample, ?_⟩
    have hset : (l.look (.sample level)).set = true ↔
        l.set = true ∨ (level = true ∧ l.seen = false) := by
      simp [Latch.look]
    rw [hset, hl.set]
    constructor
    · rintro (⟨rest, hr, hc⟩ | ⟨rfl, hlow⟩)
      · exact ⟨_, hr.append _, by simpa using hc⟩
      · exact ⟨[], rise_of_low (hlow ▸ hl.seen), by simp⟩
    · rintro ⟨rest, hr, hc⟩
      rcases rise_append hr with ⟨r, rfl, hold⟩ | ⟨_, hx, hlow⟩
      · exact .inl ⟨r, hold, fun hmem => hc (List.mem_append_left _ hmem)⟩
      · exact .inr ⟨Look.sample.inj hx, hl.seen.unique hlow⟩

theorem Latched.looks {l : Latch} (hl : Latched l h) (xs : List Look) :
    Latched (xs.foldl Latch.look l) (h ++ xs) := by
  induction xs generalizing l h with
  | nil => simpa using hl
  | cons x xs ih => simpa using ih (hl.look x)

/-- **A latch is set exactly if nothing cleared it since the most recent
rise.** -/
theorem Latched.set_iff_uncleared {l : Latch} (hl : Latched l h) :
    l.set = true ↔ Uncleared h := by
  rw [hl.set, uncleared_iff]

/-- After a low sample the first high one is a rise. -/
theorem rise_after_low {before after : List Look} (hlow : LastSeen before false)
    (hhigh : .sample true ∈ after) :
    ∃ mid rest, after = mid ++ .sample true :: rest ∧ Rise (before ++ after) rest := by
  induction after generalizing before with
  | nil => cases hhigh
  | cons x after ih =>
    by_cases hx : x = .sample true
    · subst hx
      exact ⟨[], after, rfl, before, hlow, rfl⟩
    · have hnext : LastSeen (before ++ [x]) false := by
        rcases x with (_ | _) | _
        · exact lastSeen_sample
        · exact absurd rfl hx
        · exact hlow.clear
      obtain ⟨mid, rest, rfl, hr⟩ :=
        ih hnext ((List.mem_cons.mp hhigh).resolve_left (Ne.symm hx))
      exact ⟨x :: mid, rest, rfl, by simpa using hr⟩

/-- **No way back without a clear**: if the level was once seen low and
is now seen high with nothing set, a high sample and a clear came after. -/
theorem Latched.cleared_of_low {l : Latch} (hl : Latched l h) (hhigh : l.seen = true)
    (hset : l.set = false) {before after : List Look} (hh : h = before ++ .sample false :: after) :
    ∃ mid rest, after = mid ++ .sample true :: rest ∧ .clear ∈ rest := by
  have hmem : .sample true ∈ after := by
    by_contra hno
    -- then the last sample is low
    have hlow : ∀ xs before', LastSeen before' false → Look.sample true ∉ xs →
        LastSeen (before' ++ xs) false := by
      intro xs
      induction xs with
      | nil =>
        intro before' hl _
        simpa using hl
      | cons x xs ih =>
        intro before' hl hx
        simp only [List.mem_cons, not_or] at hx
        have hnext : LastSeen (before' ++ [x]) false := by
          rcases x with (_ | _) | _
          · exact lastSeen_sample
          · exact absurd rfl hx.1
          · exact hl.clear
        simpa using ih _ hnext hx.2
    have hend := hlow after (before ++ [.sample false]) lastSeen_sample hno
    have hend : LastSeen h false := by simpa [hh] using hend
    rw [hl.seen.unique hend] at hhigh
    cases hhigh
  obtain ⟨mid, rest, rfl, hr⟩ := rise_after_low (lastSeen_sample (h := before)) hmem
  refine ⟨mid, rest, rfl, ?_⟩
  by_contra hno
  have hrise : Rise h rest := by simpa [hh] using hr
  rw [hl.set.mpr ⟨rest, hrise, hno⟩] at hset
  cases hset

end

end QkdEkm.Lib
