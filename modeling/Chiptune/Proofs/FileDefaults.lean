import Chiptune.Proofs.ProjectFiles

/-!
# Defaults of files

A member that is left out of a file counts as written with its default, in every object of a project
or option file (`Read.FileDefaults`), whatever the other members are and in whatever order they
come. The fields of an instrument's kind have defaults that depend on its type
(`Read.KindDefaultsTo`).

* `Read.foldlM_findType`: the type of an instrument is the one that its object gives.
* `Read.kindDefaultsTo`: from the defaults of a kind to those of an instrument's kind.
* `Read.fileDefaults`: **omitted members stand for their defaults.**
-/

set_option autoImplicit false

namespace Chiptune

open Json Json.Reader

namespace Read

/-! ## The type of an instrument -/

/-- A type that was found stays, and a type that is given is found. -/
theorem foldlM_findType {depth : Nat} {entries : List Entry}
    {tag tag' : Option (String × Reader InstrumentKind)}
    (h : entries.foldlM (findType depth) tag = .ok tag') :
    (∀ t ∈ tag, tag' = some t) ∧
      ∀ s, (.ok "type", s) ∈ entries → ∃ t, kindType s = .ok t ∧ tag' = some t := by
  induction entries generalizing tag with
  | nil =>
    cases h
    exact ⟨fun t ht => ht, fun _ h => absurd h List.not_mem_nil⟩
  | cons entry entries ih =>
    rw [List.foldlM_cons] at h
    obtain ⟨mid, hmid, h⟩ := bind_ok h
    obtain ⟨hkeep, htype⟩ := ih h
    obtain ⟨key, hkey, hmid⟩ := bind_ok hmid
    by_cases hname : key = "type"
    · rw [if_pos hname] at hmid
      split_ifs at hmid with hsome
      obtain ⟨t, ht, hmid⟩ := bind_ok hmid
      cases hmid
      have htag := hkeep t rfl
      refine ⟨fun t' ht' => ?_, fun s hs => ?_⟩
      · simp [Option.mem_def.1 ht'] at hsome
      · rcases List.mem_cons.1 hs with rfl | hs
        · exact ⟨t, ht, htag⟩
        · exact htype s hs
    · rw [if_neg hname] at hmid
      obtain ⟨-, -, hmid⟩ := bind_ok hmid
      cases hmid
      refine ⟨hkeep, fun s hs => ?_⟩
      rcases List.mem_cons.1 hs with rfl | hs
      · exact absurd (Except.ok.inj hkey).symm hname
      · exact htype s hs

/-- In an object that gives the type, a field that is not there counts as written with its default.
-/
def KindDefaultsTo (name : String) (read : Reader InstrumentKind)
    (defaults : List (String × Json)) : Prop :=
  ∀ d ∈ defaults, ∀ (entries : List Entry) (stop : Stop),
    (.ok "type", .string (.ok name)) ∈ entries → (∀ entry ∈ entries, entry.1 ≠ .ok d.1) →
      read (.object (entries ++ [(.ok d.1, d.2.source)]) stop) = read (.object entries stop)

theorem kindDefaultsTo {depth : Nat} {name : String} {read : Reader InstrumentKind}
    {defaults : List (String × Json)} (hname : lookup kinds Prod.fst name = .ok (name, read))
    (hread : DefaultsTo read defaults)
    (hdefaults : ∀ d ∈ defaults, d.1 ≠ "type" ∧ d.2.source.keep depth = .ok ()) :
    KindDefaultsTo name (instrumentKind depth) defaults := by
  intro d hd entries stop htype habsent
  obtain ⟨hne, hkeep⟩ := hdefaults d hd
  rw [instrumentKind_object, instrumentKind_object, List.foldlM_append]
  cases hfold : entries.foldlM (findType depth) none with
  | error p => rfl
  | ok tag =>
    obtain ⟨t, ht, rfl⟩ := (foldlM_findType hfold).2 _ htype
    have htag : t = (name, read) := by
      have : kindType (.string (.ok name)) = .ok (name, read) := hname
      rw [this] at ht
      exact (Except.ok.inj ht).symm
    have hfield : isField (.ok d.1, d.2.source) = true := by simpa [isField] using hne
    have hrest := hread d hd (entries.filter isField) .closed fun entry hentry =>
      habsent entry (List.mem_of_mem_filter hentry)
    simp only [bind, Except.bind, List.foldlM_cons, List.foldlM_nil, findType_field hne hkeep, htag,
      pure, Except.pure, List.filter_append, List.filter_cons_of_pos hfield, List.filter_nil]
    rw [kept, hrest, kept]

/-! ## The members of each object -/

def projectDefaults : List (String × Json) :=
  [("name", .string ""), ("expansions", .array []), ("n163_channels", .number 1),
    ("tempo_mode", .string "fami_tracker"), ("machine", .string "ntsc"),
    ("instruments", .array []), ("arpeggios", .array []), ("samples", .array []),
    ("sample_mappings", .array []), ("songs", .array [])]

def songDefaults : List (String × Json) :=
  [("position_overrides", .array []), ("loop_point", .null), ("speed", .number 6),
    ("tempo", .number 150), ("groove", .array [.number 6])]

def positionOverrideDefaults : List (String × Json) := [("length", .null), ("groove", .null)]

def trackDefaults : List (String × Json) := [("patterns", .array []), ("order", .array [])]

def patternDefaults : List (String × Json) := [("notes", .array [])]

def noteDefaults : List (String × Json) :=
  [("value", .null), ("instrument", .null), ("arpeggio", .null), ("volume", .null),
    ("fine_pitch", .null), ("vibrato", .null), ("slide_to", .null), ("duty", .null),
    ("note_delay", .null), ("cut_delay", .null), ("speed", .null), ("delta_counter", .null),
    ("fds_mod_speed", .null), ("fds_mod_depth", .null)]

def instrumentDefaults : List (String × Json) := [("envelopes", .object [])]

def vrc7Defaults : List (String × Json) := [("regs", .array (List.replicate 8 (.number 0)))]

def fdsDefaults : List (String × Json) :=
  [("mod_speed", .number 0), ("mod_depth", .number 0), ("mod_delay", .number 0)]

def envelopeDefaults : List (String × Json) :=
  [("loop", .null), ("release", .null), ("relative", .bool false)]

def sampleMappingDefaults : List (String × Json) :=
  [("pitch", .number 15), ("looping", .bool false)]

def optionsDefaults : List (String × Json) :=
  [("kernel", .string "extended"), ("dialect", .string "ca65"), ("label_prefix", .string ""),
    ("songs", .null), ("data_base", .number 0x8000), ("dpcm_base", .number 0xC000),
    ("compression", .object [("sweep", .object [("min", .number 8), ("max", .number 40)])]),
    ("machine", .null)]

/-- What members stand for that are left out of a file. -/
structure FileDefaults : Prop where
  project : DefaultsTo project projectDefaults
  song : DefaultsTo song songDefaults
  positionOverride : DefaultsTo positionOverride positionOverrideDefaults
  track : DefaultsTo track trackDefaults
  pattern : DefaultsTo pattern patternDefaults
  note : DefaultsTo note noteDefaults
  instrument : ∀ outer, DefaultsTo (instrument outer) instrumentDefaults
  vrc7 : ∀ depth, KindDefaultsTo "vrc7" (instrumentKind (depth + 1)) vrc7Defaults
  fds : ∀ depth, KindDefaultsTo "fds" (instrumentKind depth) fdsDefaults
  envelope : DefaultsTo envelope envelopeDefaults
  sampleMapping : DefaultsTo sampleMapping sampleMappingDefaults
  options : DefaultsTo options optionsDefaults

/-! ## Proofs -/

theorem readsAs_nothing {α : Type} (read : Reader α) : ReadsAs (list read) (.array []) [] :=
  ⟨trivial, rfl⟩

theorem defaultsTo_project : DefaultsTo project projectDefaults :=
  record_defaultsTo (by decide) (by simp) <|
    .optional (readsAs_string "") rfl <| .optional (readsAs_nothing _) rfl <|
    .optional (readsAs_nat (by decide : IsWord 1)) rfl <|
    .optional (readsAs_tempoMode .speed) rfl <| .optional (readsAs_machine .ntsc) rfl <|
    .optional (readsAs_nothing _) rfl <| .optional (readsAs_nothing _) rfl <|
    .optional (readsAs_nothing _) rfl <| .optional (readsAs_nothing _) rfl <|
    .optional (readsAs_nothing _) rfl .nil

theorem defaultsTo_song : DefaultsTo song songDefaults :=
  record_defaultsTo (by decide) (by simp) <|
    .required rfl <| .required rfl <| .required rfl <| .optional (readsAs_nothing _) rfl <|
    .optional (readsAs_none _) rfl <| .optional (readsAs_uint8 6) rfl <|
    .optional (readsAs_uint16 150) rfl <| .optional (readsAs_uint8s [6]) rfl <| .required rfl .nil

theorem defaultsTo_positionOverride : DefaultsTo positionOverride positionOverrideDefaults :=
  record_defaultsTo (by decide) (by simp) <|
    .required rfl <| .optional (readsAs_none _) rfl <| .optional (readsAs_none _) rfl .nil

theorem defaultsTo_track : DefaultsTo track trackDefaults :=
  record_defaultsTo (by decide) (by simp) <|
    .required rfl <| .optional (readsAs_nothing _) rfl <| .optional (readsAs_nothing _) rfl .nil

theorem defaultsTo_pattern : DefaultsTo pattern patternDefaults :=
  record_defaultsTo (by decide) (by simp) <|
    .optional (readsAs_nothing _) rfl .nil

theorem defaultsTo_note : DefaultsTo note noteDefaults :=
  record_defaultsTo (by decide) (by simp) <|
    .required rfl <| .optional (readsAs_none _) rfl <| .optional (readsAs_none _) rfl <|
    .optional (readsAs_none _) rfl <| .optional (readsAs_none _) rfl <|
    .optional (readsAs_none _) rfl <| .optional (readsAs_none _) rfl <|
    .optional (readsAs_none _) rfl <| .optional (readsAs_none _) rfl <|
    .optional (readsAs_none _) rfl <| .optional (readsAs_none _) rfl <|
    .optional (readsAs_none _) rfl <| .optional (readsAs_none _) rfl <|
    .optional (readsAs_none _) rfl <| .optional (readsAs_none _) rfl .nil

theorem defaultsTo_instrument (outer : Nat) : DefaultsTo (instrument outer) instrumentDefaults :=
  record_defaultsTo (by simp [Reader.required, Reader.optional]) (by simp) <|
    .required rfl <| .required rfl <|
    .optional (readsAs_envelopeSet (s := {}) fun kind => by cases kind <;> nofun) rfl .nil

theorem defaultsTo_vrc7Kind : DefaultsTo vrc7Kind vrc7Defaults :=
  DefaultsTo.bind (record_defaultsTo (by decide) (by simp) <|
    .required rfl <|
    .optional (readsAs_vector (Vector.replicate 8 0) fun b _ => readsAs_uint8 b) rfl .nil) _

theorem defaultsTo_fdsKind : DefaultsTo fdsKind fdsDefaults :=
  DefaultsTo.bind (record_defaultsTo (by decide) (by simp) <|
    .optional (readsAs_uint16 0) rfl <| .optional (readsAs_uint8 0) rfl <|
    .optional (readsAs_uint8 0) rfl .nil) _

theorem defaultsTo_envelope : DefaultsTo envelope envelopeDefaults :=
  record_defaultsTo (by decide) (by simp) <|
    .required rfl <| .optional (readsAs_none _) rfl <| .optional (readsAs_none _) rfl <|
    .optional (readsAs_bool false) rfl .nil

theorem defaultsTo_sampleMapping : DefaultsTo sampleMapping sampleMappingDefaults :=
  record_defaultsTo (by decide) (by simp) <|
    .required rfl <| .required rfl <| .optional (readsAs_uint8 15) rfl <|
    .optional (readsAs_bool false) rfl .nil

theorem defaultsTo_options : DefaultsTo options optionsDefaults :=
  record_defaultsTo (by decide) (by simp) <|
    .optional (readsAs_kernel .extended) rfl <| .optional (readsAs_dialect .ca65) rfl <|
    .optional (readsAs_string "") rfl <| .optional (readsAs_none _) rfl <|
    .optional (readsAs_uint16 0x8000) rfl <| .optional (readsAs_uint16 0xC000) rfl <|
    .optional (readsAs_compression (c := .default) ⟨by decide, by decide⟩) rfl <|
    .optional (readsAs_none _) rfl .nil

/-- **Omitted members stand for their defaults.** -/
theorem fileDefaults : FileDefaults where
  project := defaultsTo_project
  song := defaultsTo_song
  positionOverride := defaultsTo_positionOverride
  track := defaultsTo_track
  pattern := defaultsTo_pattern
  note := defaultsTo_note
  instrument := defaultsTo_instrument
  vrc7 depth := kindDefaultsTo rfl defaultsTo_vrc7Kind <|
    List.forall_mem_singleton.2 ⟨by decide, keep_uint8s (List.replicate 8 0) depth⟩
  fds depth := kindDefaultsTo rfl defaultsTo_fdsKind (by
    have hzero := keep_number (readsAs_uint8 0).fits depth
    simpa [fdsDefaults] using hzero)
  envelope := defaultsTo_envelope
  sampleMapping := defaultsTo_sampleMapping
  options := defaultsTo_options

end Read
end Chiptune
