import QkdEkm.Common.Log
import QkdEkm.Scripts.Compare
import QkdEkm.Scripts.Merge
import QkdEkm.Scripts.Prefix
import QkdEkm.Scripts.Settled

/-!
# Publish — from the log files to the comparison

The services write their records to log files, `redact.py` merges the
files into a transcript, and the transcript is compared with the events
that are expected. All of it happens on texts. On records with a message
of one line it is the stable sort by time, with each message redacted,
and the comparison sees what each component logged.
-/

namespace QkdEkm.Scripts

open QkdEkm.Lib QkdEkm.Lib.Regex QkdEkm.Common

/-- The text that `main` writes. -/
def publish (cc : CharClass) (texts : List (List Char)) : List Char :=
  (redactFiles cc texts).flatMap fun line => line ++ ['\n']

/-- A record that is one line, with a component such as the services
have. -/
structure Plain (record : Record) : Prop where
  named : record.name ≠ []
  letters : ∀ c ∈ record.name, c.isAlpha = true
  noKek : ¬ "KEKId".toList <:+ record.name
  oneLine : ∀ c ∈ record.message, isLineBreak c = false
  visible : ¬ ∀ c ∈ record.message, isSpace c = true

/-- The record with its message redacted. -/
def redacted (cc : CharClass) (record : Record) : Record :=
  { record with message := redactLine cc record.message }

/-- What the comparison makes of a record. -/
def event (record : Record) : Line := strip (record.name ++ ':' :: ' ' :: record.message)

/-- The records of one component. -/
def recordsOf (component : List Char) (records : List Record) : List Record :=
  records.filter fun record => record.name = component

/-- No clock went back. -/
def InTime (records : List Record) : Prop := records.Pairwise fun r s => r.created ≤ s.created

instance (records : List Record) : Decidable (InTime records) :=
  inferInstanceAs (Decidable (List.Pairwise _ _))

/-- The transcript of some logs says what was logged. -/
structure Published (cc : CharClass) (logs : List (List Record)) : Prop where
  lines : splitlines (publish cc (logs.map logFile)) =
    (sortBy Record.created logs.flatten).map fun record => format (redacted cc record)
  order : ∀ component, recordsOf component (sortBy Record.created logs.flatten) =
    recordsOf component logs.flatten ↔ InTime (recordsOf component logs.flatten)
  verdict : (∀ component, InTime (recordsOf component logs.flatten)) → ∀ name results expected,
    (∀ row ∈ (sequenceChecks cc name results expected
        (some (publish cc (logs.map logFile)))).getLast?, row.result = .pass) ↔
      ∀ component, (project cc (splitlines expected) component).Sublist
        ((recordsOf component logs.flatten).map fun record => event (redacted cc record))

section

variable {cc : CharClass} {record : Record} {records : List Record} {logs : List (List Record)}

/-! ## The lines of a log -/

theorem takes_digits {w n : Nat} (hw : 0 < w) (hn : n < 10 ^ w) {before after : List Char} :
    (digits cc w).Consumes before (decimal w n) after := by
  refine consumes_times_one.mpr ⟨decimal_length hw hn, fun c hc => ?_⟩
  have hdigit := decimal_digits hw hn c hc
  have h57 := (Char.isDigit_iff_toNat.mp hdigit).2
  have h9 : '9'.toNat = 57 := rfl
  rw [cc.digit_ascii c (by omega)]
  exact hdigit

/-- **The logged time is a timestamp.** -/
theorem isTimestamp_formatTime (created : Stamp) : IsTimestamp cc (formatTime created) := by
  have hyear := created.year_le
  have hmonth := created.month_le
  have hday := created.day_le
  have hhour := created.hour_lt
  have hminute := created.minute_lt
  have hsecond := created.second_lt
  have hmsecs := created.msecs_lt
  unfold IsTimestamp timestampBody formatTime
  refine ⟨_, _, rfl, takes_digits (by omega) (by omega), ['-'], _, rfl, consumes_lit.mpr rfl, ?_⟩
  refine ⟨_, _, rfl, takes_digits (by omega) (by omega), ['-'], _, rfl, consumes_lit.mpr rfl, ?_⟩
  refine ⟨_, _, rfl, takes_digits (by omega) (by omega), [' '], _, rfl, consumes_lit.mpr rfl, ?_⟩
  refine ⟨_, _, rfl, takes_digits (by omega) (by omega), [':'], _, rfl, consumes_lit.mpr rfl, ?_⟩
  refine ⟨_, _, rfl, takes_digits (by omega) (by omega), [':'], _, rfl, consumes_lit.mpr rfl, ?_⟩
  refine ⟨_, _, rfl, takes_digits (by omega) (by omega), ['.'], _, rfl, consumes_lit.mpr rfl, ?_⟩
  exact ⟨_, [], (List.append_nil _).symm, takes_digits (by omega) (by omega), rfl⟩

theorem format_eq : format record =
    logPrefix (formatTime record.created) record.name ++ record.message := by
  simp [format, logPrefix]

theorem timestampOf_format : timestampOf cc (format record) = formatTime record.created :=
  timestampOf_append (isTimestamp_formatTime record.created) _

theorem redactLine_format (h : Plain record) :
    redactLine cc (format record) = format (redacted cc record) := by
  rw [format_eq, format_eq]
  exact redactLine_message cc (isTimestamp_formatTime _) h.letters h.noKek record.message

/-- The characters of a line. -/
theorem format_forall {P : Char → Prop} (hdigit : ∀ c : Char, c.isDigit = true → P c)
    (halpha : ∀ c : Char, c.isAlpha = true → P c) (hseparator : ∀ c ∈ ['-', ' ', ':', '.'], P c)
    (hletters : ∀ c ∈ record.name, c.isAlpha = true) (hmessage : ∀ c ∈ record.message, P c) :
    ∀ c ∈ format record, P c := by
  intro c hc
  rw [format] at hc
  rcases List.mem_append.mp hc with hc | hc
  · have hts : IsTimestamp .ascii (formatTime record.created) := isTimestamp_formatTime _
    exact (hts.chars c hc).elim (hdigit c) (hseparator c)
  · simp only [List.mem_append, List.mem_cons] at hc
    rcases hc with rfl | hc | rfl | rfl | hc
    · exact hseparator ' ' (by simp)
    · exact halpha c (hletters c hc)
    · exact hseparator ':' (by simp)
    · exact hseparator ' ' (by simp)
    · exact hmessage c hc

theorem not_isLineBreak {c : Char} (hlow : 31 ≤ c.toNat) (hhigh : c.toNat < 128) :
    isLineBreak c = false := by
  simp only [isLineBreak, List.mem_cons, List.not_mem_nil, or_false, decide_eq_false_iff_not]
  omega

theorem format_oneLine (h : Plain record) : ∀ c ∈ format record, isLineBreak c = false := by
  refine format_forall (fun c hc => ?_) (fun c hc => ?_)
    (List.all_iff_forall_prop.mp (by decide)) h.letters h.oneLine
  · have h0 : '0'.toNat = 48 := rfl
    have h9 : '9'.toNat = 57 := rfl
    have hrange := Char.isDigit_iff_toNat.mp hc
    exact not_isLineBreak (by omega) (by omega)
  · have hrange := alpha_range hc
    exact not_isLineBreak (by omega) (by omega)

/-- **A log file is read back as its records' lines.** -/
theorem splitlines_logFile (h : ∀ record ∈ records, Plain record) :
    splitlines (logFile records) = records.map format := by
  have hlines : ∀ line ∈ records.map format, ∀ c ∈ line, isLineBreak c = false := by
    intro line hline
    obtain ⟨record, hrecord, rfl⟩ := List.mem_map.mp hline
    exact format_oneLine (h record hrecord)
  rw [← splitlines_flatMap hlines, List.flatMap_map]
  rfl

/-! ## The transcript -/

/-- Sorting lines by their timestamps sorts records by their times. -/
theorem sortBy_format : sortBy (timestampOf cc) (records.map format) =
    (sortBy Record.created records).map format := by
  have hle : (fun r s : Record => decide (timestampOf cc (format r) ≤ timestampOf cc (format s))) =
      fun r s => decide (r.created ≤ s.created) := by
    funext r s
    rw [timestampOf_format, timestampOf_format]
    exact decide_eq_decide.mpr formatTime_le_iff
  rw [sortBy_map, sortBy, hle]
  rfl

theorem forall_flatten (h : ∀ log ∈ logs, ∀ record ∈ log, Plain record) :
    ∀ record ∈ logs.flatten, Plain record := by
  intro record hrecord
  obtain ⟨log, hlog, hmem⟩ := List.mem_flatten.mp hrecord
  exact h log hlog record hmem

/-- **The transcript of log files is the redacted merge of their records.** -/
theorem redactFiles_logFiles (h : ∀ log ∈ logs, ∀ record ∈ log, Plain record) :
    redactFiles cc (logs.map logFile) =
      (sortBy Record.created logs.flatten).map fun record => format (redacted cc record) := by
  have hlines : (logs.map logFile).flatMap splitlines = logs.flatten.map format := by
    rw [List.flatMap_map, List.map_flatten, ← List.flatMap_def]
    exact List.flatMap_congr fun log hlog => splitlines_logFile (h log hlog)
  have hredact : ∀ record ∈ sortBy Record.created logs.flatten,
      redactLine cc (format record) = format (redacted cc record) := by
    intro record hrecord
    exact redactLine_format (forall_flatten h record (sortBy_perm.mem_iff.mp hrecord))
  calc redactFiles cc (logs.map logFile)
      = (sortBy (timestampOf cc) (logs.flatten.map format)).map (redactLine cc) :=
        congrArg (fun lines => (sortBy (timestampOf cc) lines).map (redactLine cc)) hlines
    _ = (sortBy Record.created logs.flatten).map (fun record => redactLine cc (format record)) := by
        rw [sortBy_format, List.map_map, Function.comp_def]
    _ = _ := List.map_congr_left hredact

/-- Rules write on one line. -/
theorem redactLine_oneLine {message : List Char} (h : ∀ c ∈ message, isLineBreak c = false) :
    ∀ c ∈ redactLine cc message, isLineBreak c = false := by
  have hall : placeholders.all (fun text => text.toList.all fun c => !isLineBreak c) = true := rfl
  have hplaceholders : ∀ text ∈ placeholders, ∀ c ∈ text.toList, isLineBreak c = false := by
    simpa using hall
  have hall : ∀ rs ⊆ rules cc, ∀ message : List Char, (∀ c ∈ message, isLineBreak c = false) →
      ∀ c ∈ rs.foldl applyRule message, isLineBreak c = false := by
    intro rs
    induction rs with
    | nil => exact fun _ _ h => h
    | cons rule rs ih =>
      intro hrs message h
      obtain ⟨hrule, hrs⟩ := List.cons_subset.mp hrs
      have hrepl := hplaceholders _ (replacement_mem_drop cc (n := 0) hrule)
      exact ih hrs _ ((sub_rewrites message).forall_mem hrepl h)
  exact hall _ (List.Subset.refl _) message h

/-- Rules leave something to see. -/
theorem redactLine_visible {message : List Char} (h : ¬ ∀ c ∈ message, isSpace c = true) :
    ¬ ∀ c ∈ redactLine cc message, isSpace c = true := by
  have hany : placeholders.all (fun text => text.toList.any fun c => !isSpace c) = true := rfl
  have hplaceholders : ∀ text ∈ placeholders, ¬ ∀ c ∈ text.toList, isSpace c = true := by
    simpa using hany
  have hall : ∀ rs ⊆ rules cc, ∀ message : List Char,
      (∀ c ∈ rs.foldl applyRule message, isSpace c = true) → ∀ c ∈ message, isSpace c = true := by
    intro rs
    induction rs with
    | nil => exact fun _ _ h => h
    | cons rule rs ih =>
      intro hrs message h
      obtain ⟨hrule, hrs⟩ := List.cons_subset.mp hrs
      have hrepl := hplaceholders _ (replacement_mem_drop cc (n := 0) hrule)
      exact (sub_rewrites message).forall_mem_of_replacement hrepl (ih hrs _ h)
  exact fun hspace => h (hall _ (List.Subset.refl _) message hspace)

theorem Plain.redacted (h : Plain record) : Plain (redacted cc record) where
  named := h.named
  letters := h.letters
  noKek := h.noKek
  oneLine := redactLine_oneLine h.oneLine
  visible := redactLine_visible h.visible

theorem splitlines_publish (h : ∀ log ∈ logs, ∀ record ∈ log, Plain record) :
    splitlines (publish cc (logs.map logFile)) =
      (sortBy Record.created logs.flatten).map fun record => format (redacted cc record) := by
  rw [publish, splitlines_flatMap ?_, redactFiles_logFiles h]
  intro line hline
  rw [redactFiles_logFiles h] at hline
  obtain ⟨record, hrecord, rfl⟩ := List.mem_map.mp hline
  exact format_oneLine (forall_flatten h record (sortBy_perm.mem_iff.mp hrecord)).redacted

/-! ## What the comparison sees -/

theorem isSpace_alpha {c : Char} (h : c.isAlpha = true) : isSpace c = false := by
  have hrange := alpha_range h
  simp only [isSpace, List.mem_cons, List.not_mem_nil, or_false, decide_eq_false_iff_not]
  omega

theorem dropWhile_letters {p : Char → Bool} (hp : ∀ c : Char, c.isAlpha = true → p c = false)
    (h : Plain record) (rest : List Char) :
    (record.name ++ rest).dropWhile p = record.name ++ rest := by
  obtain ⟨c, name, hname⟩ := List.exists_cons_of_ne_nil h.named
  have hc : c.isAlpha = true := h.letters c (by simp [hname])
  rw [hname, List.cons_append, List.dropWhile_cons_of_neg (by simp [hp c hc])]

/-- An event begins with the component. -/
theorem event_eq (h : Plain record) : ∃ rest, event record = record.name ++ ':' :: ' ' :: rest := by
  have hvisible : record.message.reverse.dropWhile isSpace ≠ [] := by
    intro hnil
    exact h.visible fun c hc => List.dropWhile_eq_nil_iff.mp hnil c (List.mem_reverse.mpr hc)
  have hsplit : (record.name ++ ':' :: ' ' :: record.message).reverse =
      record.message.reverse ++ (record.name ++ [':', ' ']).reverse := by simp
  refine ⟨(record.message.reverse.dropWhile isSpace).reverse, ?_⟩
  rw [event, strip, dropWhile_letters (fun _ => isSpace_alpha) h, hsplit, List.dropWhile_append,
    if_neg (by simpa using hvisible)]
  simp

/-- **The component of an event is read back.** -/
theorem componentOf_append {name rest : List Char} (hne : name ≠ [])
    (hletters : ∀ c ∈ name, c.isAlpha = true) :
    componentOf (name ++ ':' :: ' ' :: rest) = some name := by
  have hcolon : ": ".toList = [':', ' '] := rfl
  have htext : name ++ ':' :: ' ' :: rest = (name ++ [':', ' ']) ++ rest := by simp
  have hc : (seq (atLeast Char.isAlpha 1) (lit ": ")).Consumes [] (name ++ [':', ' ']) rest :=
    ⟨name, _, rfl, consumes_atLeast_one.mpr ⟨hne, hletters⟩, consumes_lit.mpr hcolon.symm⟩
  obtain ⟨n, hn⟩ := matchLength_of_consumes rfl hc
  obtain ⟨_, after, hsame, hlen, other, _, rfl, hother, hlit⟩ := matchLength_eq_some hn
  rw [consumes_lit.mp hlit, hcolon] at hsame hlen
  have hother := (consumes_atLeast_one.mp hother).2
  obtain ⟨rfl, _, _⟩ := letters_unique (x := ' ' :: rest) (y := ' ' :: after) (c := ':') (d := ':')
    hletters hother rfl rfl (by simpa using hsame)
  have hwidth : n + 1 - 2 = name.length := by
    rw [← hlen, List.length_append]
    rfl
  rw [componentOf, componentPrefix, start_matchLength, htext, hn, Option.map_some, hwidth,
    List.append_assoc, List.take_left]

theorem componentOf_event (h : Plain record) : componentOf (event record) = some record.name := by
  obtain ⟨rest, hrest⟩ := event_eq h
  rw [hrest]
  exact componentOf_append h.named h.letters

theorem eventOf_format (hspace : ∀ c : Char, c.isAlpha = true → cc.space c = false)
    (h : Plain record) : eventOf cc (format record) = event record := by
  rw [format, eventOf_timestamp (isTimestamp_formatTime _), event]
  by_cases hblank : cc.space ' ' = true
  · rw [List.dropWhile_cons_of_pos hblank, dropWhile_letters hspace h]
  · rw [List.dropWhile_cons_of_neg hblank]
    rfl

theorem strip_format (h : Plain record) : strip (format record) ≠ [] := by
  obtain ⟨c, name, hname⟩ := List.exists_cons_of_ne_nil h.named
  have hc : c ∈ format record := by simp [format, hname]
  have hletter : isSpace c = false := isSpace_alpha (h.letters c (by simp [hname]))
  intro hnil
  rw [strip, List.reverse_eq_nil_iff, List.dropWhile_eq_nil_iff] at hnil
  by_cases hfront : c ∈ (format record).takeWhile isSpace
  · rw [List.mem_takeWhile_imp hfront] at hletter
    cases hletter
  · have hback : c ∈ (format record).dropWhile isSpace := by
      rw [← List.takeWhile_append_dropWhile (p := isSpace) (l := format record)] at hc
      exact (List.mem_append.mp hc).resolve_left hfront
    rw [hnil c (List.mem_reverse.mpr hback)] at hletter
    cases hletter

/-- **The projection of a log to a component is what the component
logged.** -/
theorem project_format (hspace : ∀ c : Char, c.isAlpha = true → cc.space c = false)
    (h : ∀ record ∈ records, Plain record) (component : List Char) :
    project cc (records.map format) component = (recordsOf component records).map event := by
  have hevents : events cc (records.map format) = records.map event := by
    have hall : ∀ line ∈ records.map format, decide (strip line ≠ []) = true := by
      intro line hline
      obtain ⟨record, hrecord, rfl⟩ := List.mem_map.mp hline
      exact decide_eq_true (strip_format (h record hrecord))
    rw [events, List.filter_eq_self.mpr hall, List.map_map]
    exact List.map_congr_left fun record hrecord => eventOf_format hspace (h record hrecord)
  rw [project, hevents, ofComponent, List.filter_map, recordsOf]
  refine congrArg (List.map event) (List.filter_congr fun record hrecord => ?_)
  rw [Function.comp_apply, componentOf_event (h record hrecord)]
  exact decide_eq_decide.mpr Option.some_inj

/-- Records come out of the merge in the order in which they were logged if
no clock went back, and only then. -/
theorem recordsOf_merged {component : List Char} :
    recordsOf component (sortBy Record.created records) = recordsOf component records ↔
      InTime (recordsOf component records) := sortBy_filter_iff

end

/-- A moment of an evening. -/
def evening (second : Nat) (h : second < 60) : Stamp :=
  ⟨2025, 4, 12, 18, 38, second, 858, by omega, by omega, by omega, by omega, by omega, by omega, h,
    by omega⟩

end QkdEkm.Scripts
