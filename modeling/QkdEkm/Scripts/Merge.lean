import Mathlib.Data.Bool.AllAny
import Mathlib.Data.Char
import Mathlib.Data.List.Lex
import QkdEkm.Lib.StableSort
import QkdEkm.Lib.Text
import QkdEkm.Scripts.Timestamp

/-!
# Merge — several logs as one

The lines of all files are sorted by their timestamps. A line without a
timestamp, which continues the message before it, has the least key of
all: it leaves its message and comes out in front of every timestamp.
-/

namespace QkdEkm.Scripts

open QkdEkm.Lib QkdEkm.Lib.Regex

variable (cc : CharClass)

/-- `redact_files`, on the texts of the files. -/
def redactFiles (texts : List (List Char)) : List (List Char) :=
  (sortBy (timestampOf cc) (texts.flatMap splitlines)).map (redactLine cc)

/-! ## Where a line comes from -/

/-- A line with its file and its place there. -/
structure Entry where
  file : Nat
  pos : Nat
  line : List Char
  deriving DecidableEq, Repr

def entriesOf (file : Nat) (text : List Char) : List Entry :=
  (splitlines text).zipIdx.map fun (line, pos) => ⟨file, pos, line⟩

def entries (texts : List (List Char)) : List Entry :=
  texts.zipIdx.flatMap fun (text, file) => entriesOf file text

/-- The input has the one line before the other. -/
def Entry.Precedes (a b : Entry) : Prop := a.file < b.file ∨ a.file = b.file ∧ a.pos < b.pos

def Entry.stamp (e : Entry) : List Char := timestampOf cc e.line

def Entry.stamped (e : Entry) : Bool := e.stamp cc ≠ []

/-- The lines in the order in which `redact_files` returns them. -/
def merged (texts : List (List Char)) : List Entry := sortBy (Entry.stamp cc) (entries texts)

/-- A merge that keeps what the logs say about the order. -/
structure KeepsOrder (texts : List (List Char)) : Prop where
  lines : redactFiles cc texts = (merged cc texts).map fun e => redactLine cc e.line
  all : (merged cc texts).Perm (entries texts)
  stamps : ∀ e ∈ merged cc texts, timestampOf cc (redactLine cc e.line) ≠ [] →
    timestampOf cc (redactLine cc e.line) = e.stamp cc
  sorted : ((merged cc texts).filter (Entry.stamped cc)).Pairwise fun a b =>
    a.stamp cc < b.stamp cc ∨ a.stamp cc = b.stamp cc ∧ a.Precedes b
  files : ∀ file, (merged cc texts).filter (fun e => e.file = file) =
    (entries texts).filter fun e => e.file = file

/-- The timestamps of a log never go back. -/
def Chronological (lines : List (List Char)) : Prop :=
  (lines.filter fun line => timestampOf cc line ≠ []).Pairwise fun a b =>
    timestampOf cc a ≤ timestampOf cc b

/-- No line continues the message of a timestamped one. -/
def Unbroken (lines : List (List Char)) : Prop :=
  lines.Pairwise fun a b => timestampOf cc a ≠ [] → timestampOf cc b ≠ []

instance (lines : List (List Char)) : Decidable (Chronological cc lines) :=
  inferInstanceAs (Decidable (List.Pairwise _ _))

instance (lines : List (List Char)) : Decidable (Unbroken cc lines) :=
  inferInstanceAs (Decidable (List.Pairwise _ _))

section

variable {cc : CharClass} {texts : List (List Char)} {text : List Char} {file : Nat}

theorem entriesOf_map_line : (entriesOf file text).map Entry.line = splitlines text := by
  rw [entriesOf, List.map_map]
  exact List.zipIdx_map_fst 0 (splitlines text)

theorem entries_map_line : (entries texts).map Entry.line = texts.flatMap splitlines := by
  rw [entries, List.map_flatMap]
  simp only [entriesOf_map_line]
  calc texts.zipIdx.flatMap (fun p => splitlines p.1)
      = (texts.zipIdx.map Prod.fst).flatMap splitlines := by rw [List.flatMap_map]
    _ = texts.flatMap splitlines := by rw [List.zipIdx_map_fst]

theorem mem_entriesOf {e : Entry} (h : e ∈ entriesOf file text) : e.file = file := by
  obtain ⟨_, _, rfl⟩ := List.mem_map.mp h
  rfl

theorem zipIdx_ordered {α : Type} (l : List α) (k : Nat) :
    (l.zipIdx k).Pairwise fun a b => a.2 < b.2 := by
  have hlt : (List.range' k l.length).Pairwise (· < ·) := List.pairwise_lt_range'
  rwa [← List.zipIdx_map_snd k l, List.pairwise_map] at hlt

theorem entriesOf_ordered : (entriesOf file text).Pairwise Entry.Precedes := by
  rw [entriesOf, List.pairwise_map]
  exact (zipIdx_ordered (splitlines text) 0).imp fun hlt => .inr ⟨rfl, hlt⟩

theorem entries_ordered : (entries texts).Pairwise Entry.Precedes := by
  rw [entries, List.pairwise_flatMap]
  refine ⟨fun _ _ => entriesOf_ordered, (zipIdx_ordered texts 0).imp fun hlt a ha b hb => .inl ?_⟩
  rw [mem_entriesOf ha, mem_entriesOf hb]
  exact hlt

theorem entriesOf_filter {other : Nat} :
    (entriesOf other text).filter (fun e => e.file = file) =
      if other = file then entriesOf file text else [] := by
  split
  · rename_i h
    rw [h, List.filter_eq_self]
    exact fun e he => decide_eq_true (mem_entriesOf he)
  · rename_i h
    rw [List.filter_eq_nil_iff]
    intro e he
    simpa [mem_entriesOf he] using h

/-- The lines of one file are those of its text. -/
theorem entries_filter_file : (entries texts).filter (fun e => e.file = file) =
    texts[file]?.elim [] (entriesOf file) := by
  -- behind `k` other files
  have hfrom : ∀ k ≤ file, (texts.zipIdx k).flatMap (fun p =>
      (entriesOf p.2 p.1).filter fun e => e.file = file) =
        texts[file - k]?.elim [] (entriesOf file) := by
    induction texts with
    | nil => simp
    | cons text texts ih =>
      intro k hk
      rw [List.zipIdx_cons, List.flatMap_cons, entriesOf_filter]
      rcases hk.eq_or_lt with rfl | hlt
      · have hnone : (texts.zipIdx (k + 1)).flatMap (fun p =>
            (entriesOf p.2 p.1).filter fun e => e.file = k) = [] := by
          refine List.flatMap_eq_nil_iff.mpr fun p hp => ?_
          rw [entriesOf_filter, if_neg (by have := (List.mem_zipIdx hp).1; omega)]
        rw [if_pos rfl, hnone, List.append_nil, Nat.sub_self]
        rfl
      · obtain ⟨n, hn⟩ : ∃ n, file - k = n + 1 := ⟨file - k - 1, by omega⟩
        rw [if_neg hlt.ne, List.nil_append, ih (k + 1) hlt, hn, List.getElem?_cons_succ]
        congr 2
        omega
  rw [entries, List.filter_flatMap]
  exact hfrom 0 (Nat.zero_le _)

/-! ## What the merge keeps -/

theorem redactFiles_eq : redactFiles cc texts =
    (merged cc texts).map fun e => redactLine cc e.line := by
  rw [redactFiles, ← entries_map_line, sortBy_map, List.map_map]
  rfl

/-- A timestamp in front of a redacted line is the one of the line. -/
theorem timestampOf_redactLine {line : List Char} (h : timestampOf cc (redactLine cc line) ≠ []) :
    timestampOf cc (redactLine cc line) = timestampOf cc line := by
  obtain ⟨hts, rest, hrest⟩ := (timestampOf_cases (redactLine cc line)).resolve_left h
  generalize timestampOf cc (redactLine cc line) = ts at hts hrest
  have hplain : ∀ c ∈ ts, c ∉ ['<', 'K', 'g'] := by
    intro c hc hopen
    have hdigit : cc.digit c = false := by
      simp only [List.mem_cons, List.not_mem_nil, or_false] at hopen
      rcases hopen with rfl | rfl | rfl <;> exact cc.digit_ascii _ (by decide)
    rcases hts.chars c hc with hd | hd
    · rw [hd] at hdigit
      cases hdigit
    · have hapart : ∀ d ∈ ['-', ' ', ':', '.'], d ∉ ['<', 'K', 'g'] :=
        List.all_iff_forall_prop.mp (by decide)
      exact hapart c hd hopen
  obtain ⟨rest', rfl⟩ := redactLine_front cc hplain (hrest ▸ List.prefix_append ts rest)
  exact (timestampOf_append hts rest').symm

theorem merged_sorted : (merged cc texts).Pairwise fun a b =>
    a.stamp cc < b.stamp cc ∨ a.stamp cc = b.stamp cc ∧ a.Precedes b :=
  sortBy_stable entries_ordered

/-- Each log comes out in order if and only if its keys are in order. -/
theorem merged_files : (∀ file, (merged cc texts).filter (fun e => e.file = file) =
      (entries texts).filter fun e => e.file = file) ↔
    ∀ text ∈ texts, (splitlines text).Pairwise fun a b => timestampOf cc a ≤ timestampOf cc b := by
  have hfile : ∀ file text, ((entriesOf file text).Pairwise fun a b => a.stamp cc ≤ b.stamp cc) ↔
      (splitlines text).Pairwise fun a b => timestampOf cc a ≤ timestampOf cc b := by
    intro file text
    have hlines : (entriesOf file text).map Entry.line = splitlines text := entriesOf_map_line
    rw [← hlines, List.pairwise_map]
    rfl
  have hkeeps : ∀ file, (merged cc texts).filter (fun e => e.file = file) =
      (entries texts).filter (fun e => e.file = file) ↔
        (texts[file]?.elim [] (entriesOf file)).Pairwise fun a b => a.stamp cc ≤ b.stamp cc := by
    intro file
    rw [merged, sortBy_filter_iff, entries_filter_file]
  constructor
  · intro h text htext
    obtain ⟨file, hget⟩ := List.getElem?_of_mem htext
    have hordered := (hkeeps file).mp (h file)
    rw [hget] at hordered
    exact (hfile file text).mp hordered
  · intro h file
    refine (hkeeps file).mpr ?_
    cases hget : texts[file]? with
    | none => exact .nil
    | some text => exact (hfile file text).mpr (h text (List.mem_of_getElem? hget))

/-- In a chronological log the keys are in order up to the first line that
continues a message. -/
theorem keys_ordered {lines : List (List Char)} (h : Chronological cc lines) :
    (lines.Pairwise fun a b => timestampOf cc a ≤ timestampOf cc b) ↔ Unbroken cc lines := by
  constructor
  · refine fun hkeys => hkeys.imp fun {a b} hle ha hb => ?_
    rw [hb] at hle
    obtain ⟨c, ts, hts⟩ := List.exists_cons_of_ne_nil ha
    rw [hts] at hle
    exact absurd (List.nil_lt_cons c ts) hle.not_gt
  · intro hunbroken
    refine ((List.pairwise_filter.mp h).and hunbroken).imp fun {a b} ⟨hle, hb⟩ => ?_
    by_cases ha : timestampOf cc a = []
    · rw [ha]
      cases timestampOf cc b with
      | nil => exact le_refl _
      | cons c ts => exact (List.nil_lt_cons c ts).le
    · exact hle (by simpa using ha) (by simpa using hb ha)

/-- **Merging keeps the order of the logs in which no line continues a
message**, and of no others. -/
theorem merge_keeps_order (h : ∀ text ∈ texts, Chronological cc (splitlines text)) :
    KeepsOrder cc texts ↔ ∀ text ∈ texts, Unbroken cc (splitlines text) := by
  have hfiles : (∀ file, (merged cc texts).filter (fun e => e.file = file) =
      (entries texts).filter fun e => e.file = file) ↔
        ∀ text ∈ texts, Unbroken cc (splitlines text) :=
    merged_files.trans (forall₂_congr fun text htext => keys_ordered (h text htext))
  constructor
  · exact fun hkeeps => hfiles.mp hkeeps.files
  · intro hunbroken
    exact {
      lines := redactFiles_eq
      all := sortBy_perm
      stamps := fun _ _ => timestampOf_redactLine
      sorted := merged_sorted.filter _
      files := hfiles.mpr hunbroken }

end

/-- Two logs with three messages. -/
def twoLogs : List (List Char) :=
  ["2025-04-12 18:38:53.858 EKM: first\n2025-04-12 18:38:55.000 EKM: third\n".toList,
    "2025-04-12 18:38:54.100 VPNServer: second\n".toList]

theorem merge_keeps_order_twoLogs : KeepsOrder .ascii twoLogs := by
  refine (merge_keeps_order ?_).mpr ?_
  · decide +kernel
  · decide +kernel

/-- **A traceback leaves its message.** -/
theorem merge_moves_continuation : ¬ ∀ texts : List (List Char),
    (∀ text ∈ texts, Chronological .ascii (splitlines text) ∧
      ∀ line ∈ (splitlines text).head?, timestampOf .ascii line ≠ []) →
        KeepsOrder .ascii texts := by
  intro h
  let text := "2025-04-12 18:38:53.858 EKM: failed\nTraceback\n".toList
  have hchronological : Chronological .ascii (splitlines text) := by decide +kernel
  have hkeeps := h [text] (by
    simp only [List.mem_singleton, forall_eq]
    exact ⟨hchronological, by decide +kernel⟩)
  have hunbroken := (keys_ordered hchronological).mp
    (merged_files.mp hkeeps.files text (List.mem_singleton_self _))
  exact absurd hunbroken (by decide +kernel)

end QkdEkm.Scripts
