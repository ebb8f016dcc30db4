import QkdEkm.Upload.Decision

/-!
# Names — the names of the objects

The limit of the store counts bytes of UTF-8, the truncation characters.
A name is 37 bytes longer than what the truncation leaves of the
filename's last component.
-/

namespace QkdEkm.Upload

open QkdEkm.Common QkdEkm.Lib

/-- The size of a text in UTF-8. -/
def bytes (s : String) : Nat := (Percent.utf8 s.toList).length

theorem bytes_append (s t : String) : bytes (s ++ t) = bytes s + bytes t := by
  simp [bytes, Percent.utf8]

theorem bytes_eq_length {s : String} (h : ∀ c ∈ s.toList, c.utf8Size = 1) :
    bytes s = s.toList.length := by
  unfold bytes Percent.utf8
  rw [List.length_flatMap, List.map_congr_left (g := fun _ => 1)]
  · simp
  · intro c hc
    rw [String.length_utf8EncodeChar, h c hc]

/-- The limit of Cloud Storage. -/
def maxNameBytes : Nat := 1024

/-- What a name for the file is to be. -/
structure Fits (uuid : Uuid) (filename name : String) : Prop where
  parts : ∃ rest : String, name = uuid.text ++ "_" ++ rest ∧
    rest.toList <+: (basename filename).toList
  noSlash : '/' ∉ name.toList
  accepted : DirSink.Accepts name
  size : bytes name ≤ maxNameBytes

/-! ## The parts of a name -/

/-- The last component is what stands behind the last slash. -/
theorem basename_spec (path : String) : '/' ∉ (basename path).toList ∧
    (path = basename path ∨ ∃ dir, path = dir ++ "/" ++ basename path) := by
  unfold basename rpartition
  rw [List.span_eq_takeWhile_dropWhile]
  dsimp only
  rw [String.toList_ofList]
  constructor
  · intro hmem
    have := List.mem_takeWhile_imp (List.mem_reverse.mp hmem)
    simp at this
  · have hsplit := List.takeWhile_append_dropWhile (p := (· ≠ '/')) (l := path.toList.reverse)
    rcases hrest : path.toList.reverse.dropWhile (· ≠ '/') with _ | ⟨c, rest⟩
    · left
      rw [hrest, List.append_nil] at hsplit
      rw [hsplit]
      simp
    · right
      have hc : c = '/' := by
        have := List.head?_dropWhile_not (· ≠ '/') path.toList.reverse
        rw [hrest] at this
        simpa using this
      refine ⟨String.ofList rest.reverse, ?_⟩
      rw [hrest] at hsplit
      apply String.toList_inj.mp
      have := congrArg List.reverse hsplit
      simpa [hc] using this.symm

theorem bytes_uuid (uuid : Uuid) : bytes uuid.text = 36 := by
  rw [bytes_eq_length, uuid.length_eq]
  intro c hc
  have hascii : ∀ c ∈ uuidChars, c.utf8Size = 1 := List.all_iff_forall_prop.mp (by decide)
  exact hascii c (uuid.chars c hc)

theorem bytes_objectName (uuid : Uuid) (filename : String) :
    bytes (objectName uuid filename) = 37 + bytes (truncate 255 (basename filename)) := by
  rw [objectName, bytes_append, bytes_append, bytes_uuid]
  rfl

/-- No part of a name has a slash. -/
theorem objectName_no_slash (uuid : Uuid) (filename : String) :
    '/' ∉ (objectName uuid filename).toList := by
  rw [objectName, String.toList_append, String.toList_append]
  simp only [List.mem_append, not_or]
  refine ⟨⟨fun h => ?_, by decide⟩, fun h => ?_⟩
  · exact absurd (uuid.chars _ h) (by decide)
  · rw [truncate, String.toList_ofList] at h
    exact (basename_spec filename).1 (List.mem_of_mem_take h)

theorem objectName_accepted (uuid : Uuid) (filename : String) :
    DirSink.Accepts (objectName uuid filename) := by
  refine ⟨objectName_no_slash uuid filename, fun h => ?_⟩
  have hlong : 36 ≤ (objectName uuid filename).toList.length := by
    simp only [objectName, String.toList_append, List.length_append, uuid.length_eq]
    omega
  have hshort : ∀ name ∈ ["", ".", ".."], name.toList.length ≤ 2 := by decide
  have := hshort _ h
  omega

/-- **A name fits exactly if what is left of the filename does.** -/
theorem fits_objectName (uuid : Uuid) (filename : String) :
    Fits uuid filename (objectName uuid filename) ↔
      bytes (truncate 255 (basename filename)) ≤ 987 := by
  have hbytes := bytes_objectName uuid filename
  constructor
  · intro h
    have := h.size
    unfold maxNameBytes at this
    omega
  · intro h
    refine ⟨⟨_, rfl, ?_⟩, objectName_no_slash uuid filename, objectName_accepted uuid filename, ?_⟩
    · rw [truncate, String.toList_ofList]
      exact List.take_prefix ..
    · unfold maxNameBytes
      omega

/-- Uploads with different uuids do not overwrite each other, whatever
their filenames. -/
theorem objectName_uuid {uuid uuid' : Uuid} {filename filename' : String}
    (h : objectName uuid filename = objectName uuid' filename') : uuid.text = uuid'.text := by
  have hchars := congrArg String.toList h
  simp only [objectName, String.toList_append, List.append_assoc] at hchars
  have hlength : uuid.text.toList.length = uuid'.text.toList.length :=
    uuid.length_eq.trans uuid'.length_eq.symm
  exact String.toList_inj.mp (List.append_inj hchars hlength).1

/-! ## The names of a run -/

section

variable {settings : UploadSettings} {aead : Aead} {s : Server} {a : Act} {name : String}
  {data : Bytes}

/-- Only an upload whose file was read and decrypted stores an object. -/
theorem step_store (h : (step settings aead s a).2 = .store name data) :
    ∃ uuid key req filename, a.input = .read uuid ∧ s.stages a.task = .reading key req ∧
      req.filename = .text filename ∧ decrypt aead key req = some data ∧
      name = objectName uuid filename := by
  unfold step at h
  split at h
  · cases h
  · rename_i now req _ _
    rcases hlook : (s.pruneKeys now).keys.lookup req.keyId with _ | entry
    · rw [upload_unknown hlook] at h
      cases h
    · rw [upload_known hlook] at h
      cases h
  · cases h
  · rename_i answer _ _
    cases answer <;> cases h
  · rename_i key req uuid hstage hinput
    rcases hdec : decrypt aead key req with _ | plaintext
    · rw [uploadRead_none hdec] at h
      cases h
    · obtain ⟨filename, hname⟩ := decrypt_text hdec
      rw [uploadRead_some hname hdec] at h
      cases h
      exact ⟨uuid, key, req, filename, hinput, hstage, hname, hdec, rfl⟩
  · cases h
  · cases h
  · cases h

end

/-- **The name of an object fits the store if and only if** the first 255
characters of the filename's last component take at most 987 bytes. The
other parts of the rule hold for every object. -/
theorem stored_name_fits {settings : UploadSettings} {aead : Aead} {acts : List Act} {m : Step}
    (hm : m ∈ trace (step settings aead) {} acts) {name : String} {data : Bytes}
    (hout : m.out = .store name data) :
    ∃ uuid key req filename, m.act.input = .read uuid ∧
      m.pre.stages m.act.task = .reading key req ∧ req.filename = .text filename ∧
      (Fits uuid filename name ↔ bytes (truncate 255 (basename filename)) ≤ 987) := by
  obtain ⟨before, after, rfl, heq⟩ := mem_trace hm
  rw [heq] at hout ⊢
  obtain ⟨uuid, key, req, filename, hinput, hstage, hname, -, rfl⟩ := step_store hout
  exact ⟨uuid, key, req, filename, hinput, hstage, hname, fits_objectName uuid filename⟩

/-- The sealed form under another name. -/
def formNamed (filename : String) : UploadRequest :=
  { sealedForm with filename := .text filename }

/-- A run that uploads it. -/
def namedRun (filename : String) : List Act :=
  keyedRun ++ [⟨1, .upload 600 (formNamed filename)⟩]

/-- The section that hands it to the sink. -/
def namedStore (filename : String) : Step :=
  moment (step {} Aead.tagging) (exec (step {} Aead.tagging) {} (namedRun filename))
    ⟨1, .read .nil⟩

theorem namedStore_mem (filename : String) :
    namedStore filename ∈
      trace (step {} Aead.tagging) {} (namedRun filename ++ [⟨1, .read .nil⟩]) :=
  mem_trace_append ..

/-- Every name is accepted. -/
theorem namedStore_out (filename : String) :
    (namedStore filename).out = .store (objectName .nil filename) [5, 6] := by
  rfl

/-- The name of a small file fits. -/
theorem stored_name_fits_small :
    ∃ uuid key req filename, (namedStore "a.txt").act.input = .read uuid ∧
      (namedStore "a.txt").pre.stages (namedStore "a.txt").act.task = .reading key req ∧
      req.filename = .text filename ∧
      (Fits uuid filename (objectName .nil "a.txt") ↔
        bytes (truncate 255 (basename filename)) ≤ 987) :=
  stored_name_fits (namedStore_mem "a.txt") (namedStore_out "a.txt")

/-- A name of `n` characters of four bytes. -/
def wideName (n : Nat) : String := String.ofList (List.replicate n '😀')

theorem truncate_wideName (n : Nat) : truncate n (basename (wideName n)) = wideName n := by
  have hslash : '/' ∉ (wideName n).toList := by
    rw [wideName, String.toList_ofList, List.mem_replicate]
    exact fun h => absurd h.2 (by decide)
  have hbase : basename (wideName n) = wideName n := by
    rcases (basename_spec (wideName n)).2 with h | ⟨dir, h⟩
    · exact h.symm
    · rw [h] at hslash
      simp at hslash
  rw [hbase, truncate, wideName, String.toList_ofList, List.take_of_length_le (by simp)]

theorem bytes_wideName (n : Nat) : bytes (wideName n) = n * 4 := by
  rw [bytes, Percent.utf8, wideName, String.toList_ofList, List.length_flatMap,
    List.map_replicate, List.sum_replicate_nat, String.length_utf8EncodeChar]
  rfl

/-- **An accepted file gets a name of 1057 bytes.** -/
theorem stored_name_overlong : ¬ ∀ (settings : UploadSettings) (aead : Aead) (acts : List Act),
    ∀ m ∈ trace (step settings aead) {} acts, ∀ name data, m.out = .store name data →
      ∀ uuid key req filename, m.act.input = .read uuid →
        m.pre.stages m.act.task = .reading key req → req.filename = .text filename →
          Fits uuid filename name := by
  intro h
  have hfits := fun filename => h {} Aead.tagging _ _ (namedStore_mem filename) _ _
    (namedStore_out filename) .nil _ (formNamed filename) filename rfl rfl rfl
  have hsize := (hfits (wideName 255)).size
  rw [bytes_objectName, truncate_wideName, bytes_wideName] at hsize
  exact absurd hsize (by decide)

end QkdEkm.Upload
