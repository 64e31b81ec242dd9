import Chiptune.Proofs.FileDefaults

/-!
# Files and values determine each other

Whatever text is read, the value has sizes and indices within machine words
(`Read.produces_project`), so its own text is read back. Hence a project is read back from its text
just if it fits, and reading, writing and reading again gives the value of the first reading.

* `Project.ofJson_toJson`, `Options.ofJson_toJson`: what is written is read back.
* `Project.fits_of_ofJson`, `Options.fits_of_ofJson`: what is read fits.
* `files_roundTrip`: **texts and values round-trip**, and omitted members stand for their defaults.
-/

set_option autoImplicit false

namespace Chiptune

open Json Json.Reader
open CommandLine (textBytes)

/-! ## What is read fits -/

namespace Read

/-- A field that a property does not speak of. -/
theorem keeps_other {α β : Type} {P : α → Prop} {name : String} {q : Bool} {read : Reader β}
    {set : α → β → α} (h : ∀ a b, P a → P (set a b)) :
    Keeps P ⟨name, q, fun a s => set a <$> read s⟩ := by
  intro a s c ha hc
  obtain ⟨b, -, rfl⟩ := map_ok hc
  exact h a b ha

theorem produces_index : Produces (option Reader.nat) fun o => ∀ n ∈ o, IsWord n :=
  produces_option produces_nat

theorem produces_envelope : Produces envelope Envelope.Fits := by
  refine produces_record ⟨nofun, nofun⟩ ?_
  simp only [List.forall_mem_cons]
  exact ⟨keeps_other fun _ _ h => { h with },
    keeps_optional produces_index fun _ _ h hi => { h with loopPoint := hi },
    keeps_optional produces_index fun _ _ h hi => { h with release := hi },
    keeps_other fun _ _ h => { h with }, nofun⟩

theorem fits_ofList {entries : List (EnvelopeKind × Envelope)} (h : ∀ e ∈ entries, e.2.Fits) :
    (EnvelopeSet.ofList entries).Fits := by
  suffices hfold : ∀ s : EnvelopeSet, s.Fits →
      (entries.foldl (fun s entry => s.insert entry.1 entry.2) s).Fits from
    hfold {} fun kind => by cases kind <;> nofun
  induction entries with
  | nil => exact fun _ hs => hs
  | cons entry entries ih =>
    intro s hs
    refine ih (fun e he => h e (List.mem_cons_of_mem _ he)) _ fun kind e he => ?_
    rw [EnvelopeSet.get?_insert] at he
    split_ifs at he with hkind
    · obtain rfl := Option.some.inj he
      exact h entry List.mem_cons_self
    · exact hs kind e he

theorem produces_envelopeSet : Produces envelopeSet EnvelopeSet.Fits := by
  intro s set h
  cases s with
  | object entries stop =>
    obtain ⟨pairs, hpairs, h⟩ := bind_ok h
    obtain ⟨-, -, h⟩ := bind_ok h
    cases h
    refine fits_ofList fun pair hpair => ?_
    obtain ⟨entry, -, hentry⟩ := exists_of_mapM_ok hpairs hpair
    obtain ⟨name, -, hentry⟩ := bind_ok hentry
    obtain ⟨kind, -, hentry⟩ := bind_ok hentry
    obtain ⟨e, he, hentry⟩ := bind_ok hentry
    cases hentry
    exact produces_envelope _ _ he
  | _ => cases h

theorem produces_instrument (outer : Nat) : Produces (instrument outer) Instrument.Fits := by
  refine produces_record (fun kind => by cases kind <;> nofun) ?_
  simp only [List.forall_mem_cons]
  exact ⟨keeps_other fun _ _ h => h, keeps_other fun _ _ h => h,
    keeps_optional produces_envelopeSet fun _ _ _ hs => hs, nofun⟩

theorem produces_arpeggio : Produces arpeggio Arpeggio.Fits := by
  refine produces_record ⟨nofun, nofun⟩ ?_
  simp only [List.forall_mem_cons]
  exact ⟨keeps_other fun _ _ h => h, keeps_required produces_envelope fun _ _ _ he => he, nofun⟩

theorem produces_sampleMapping : Produces sampleMapping SampleMapping.Fits := by
  refine produces_record (by decide : IsWord 0) ?_
  simp only [List.forall_mem_cons]
  exact ⟨keeps_other fun _ _ h => h, keeps_required produces_nat fun _ _ _ hn => hn,
    keeps_other fun _ _ h => h, keeps_other fun _ _ h => h, nofun⟩

theorem produces_note : Produces note Note.Fits := by
  refine produces_record ⟨by decide, nofun, nofun⟩ ?_
  simp only [List.forall_mem_cons]
  refine ⟨keeps_required produces_nat fun _ _ h hr => { h with row := hr }, ?_,
    keeps_optional produces_index fun _ _ h hi => { h with instrument := hi },
    keeps_optional produces_index fun _ _ h hi => { h with arpeggio := hi },
    ?_, ?_, ?_, ?_, ?_, ?_, ?_, ?_, ?_, ?_, ?_, nofun⟩
  all_goals exact keeps_other fun _ _ h => { h with }

theorem produces_pattern : Produces pattern Pattern.Fits := by
  refine produces_record (List.forall_mem_nil _) ?_
  simp only [List.forall_mem_cons]
  exact ⟨keeps_optional (produces_list produces_note) fun _ _ _ h => h, nofun⟩

theorem produces_track : Produces track Track.Fits := by
  refine produces_record ⟨List.forall_mem_nil _, List.forall_mem_nil _⟩ ?_
  simp only [List.forall_mem_cons]
  exact ⟨keeps_other fun _ _ h => { h with },
    keeps_optional (produces_list produces_pattern) fun _ _ h hp => { h with patterns := hp },
    keeps_optional (produces_list produces_index) fun _ _ h ho => { h with order := ho }, nofun⟩

theorem produces_positionOverride : Produces positionOverride PositionOverride.Fits := by
  refine produces_record ⟨by decide, nofun⟩ ?_
  simp only [List.forall_mem_cons]
  exact ⟨keeps_required produces_nat fun _ _ h hn => { h with position := hn },
    keeps_optional produces_index fun _ _ h hn => { h with length := hn },
    keeps_other fun _ _ h => { h with }, nofun⟩

theorem produces_song : Produces song Song.Fits := by
  refine produces_record ⟨by decide, by decide, List.forall_mem_nil _, nofun,
    List.forall_mem_nil _⟩ ?_
  simp only [List.forall_mem_cons]
  exact ⟨keeps_other fun _ _ h => { h with },
    keeps_required produces_nat fun _ _ h hn => { h with length := hn },
    keeps_required produces_nat fun _ _ h hn => { h with patternLength := hn },
    keeps_optional (produces_list produces_positionOverride) fun _ _ h ho =>
      { h with overrides := ho },
    keeps_optional produces_index fun _ _ h hi => { h with loopPoint := hi },
    keeps_other fun _ _ h => { h with },
    keeps_other fun _ _ h => { h with },
    keeps_other fun _ _ h => { h with },
    keeps_required (produces_list produces_track) fun _ _ h ht => { h with tracks := ht }, nofun⟩

theorem produces_project : Produces project Project.Fits := by
  refine produces_record ⟨by decide, List.forall_mem_nil _, List.forall_mem_nil _,
    List.forall_mem_nil _, List.forall_mem_nil _⟩ ?_
  simp only [List.forall_mem_cons]
  exact ⟨keeps_other fun _ _ h => { h with },
    keeps_other fun _ _ h => { h with },
    keeps_optional produces_nat fun _ _ h hn => { h with n163Channels := hn },
    keeps_other fun _ _ h => { h with },
    keeps_other fun _ _ h => { h with },
    keeps_optional (produces_list (produces_instrument 2)) fun _ _ h hi =>
      { h with instruments := hi },
    keeps_optional (produces_list produces_arpeggio) fun _ _ h ha => { h with arpeggios := ha },
    keeps_other fun _ _ h => { h with },
    keeps_optional (produces_list produces_sampleMapping) fun _ _ h hm => { h with mappings := hm },
    keeps_optional (produces_list produces_song) fun _ _ h hs => { h with songs := hs }, nofun⟩

theorem produces_sweep : Produces sweep Compression.Fits := by
  intro s c h
  obtain ⟨⟨low, high⟩, hbounds, h⟩ := bind_ok h
  cases h
  refine produces_record (P := fun b : Nat × Nat => IsWord b.1 ∧ IsWord b.2)
    ⟨by decide, by decide⟩ ?_ s (low, high) hbounds
  simp only [List.forall_mem_cons]
  exact ⟨keeps_required produces_nat fun _ _ h hn => ⟨hn, h.2⟩,
    keeps_required produces_nat fun _ _ h hn => ⟨h.1, hn⟩, nofun⟩

theorem produces_compression : Produces compression Compression.Fits := by
  refine produces_variant (fun name c h => ?_) fun name read h => ?_
  · split at h
    · cases h
      trivial
    · cases h
  · split at h
    · cases h
      intro s c h
      cases s with
      | null =>
        cases h
        trivial
      | _ => cases h
    · cases h
      exact produces_nat.map fun n hn => hn
    · cases h
      exact produces_sweep
    · cases h

theorem produces_options : Produces options Options.Fits := by
  refine produces_record ⟨nofun, by decide, by decide⟩ ?_
  simp only [List.forall_mem_cons]
  refine ⟨?_, ?_, ?_,
    keeps_optional (produces_option (produces_list produces_nat)) fun _ _ h hs =>
      { h with songs := hs },
    ?_, ?_,
    keeps_optional produces_compression fun _ _ h hc => { h with compression := hc }, ?_, nofun⟩
  all_goals exact keeps_other fun _ _ h => { h with }

end Read

/-! ## Round trips -/

theorem Json.text_compact {α : Type} {read : Reader α} {j : Json} {a : α} (h : ReadsAs read j a) :
    text read (textBytes j.compact) = .ok a := by
  simp only [text, ofBytes_compact h.fits, h.reads, bind, Except.bind]
  rfl

theorem Json.fits_of_text {α : Type} {read : Reader α} {P : α → Prop} (h : Produces read P)
    {bytes : List UInt8} {a : α} (ha : text read bytes = .ok a) : P a := by
  obtain ⟨b, hb, ha⟩ := bind_ok ha
  split_ifs at ha
  · cases ha
  · cases ha
    exact h _ _ hb

theorem Project.ofJson_toJson {p : Project} (h : p.Fits) :
    Project.ofJson (textBytes p.toJson) = .ok p :=
  text_compact (Read.readsAs_project h)

theorem Options.ofJson_toJson {o : Options} (h : o.Fits) :
    Options.ofJson (textBytes o.toJson) = .ok o :=
  text_compact (Read.readsAs_options h)

theorem Project.fits_of_ofJson {bytes : List UInt8} {p : Project}
    (h : Project.ofJson bytes = .ok p) : p.Fits :=
  fits_of_text Read.produces_project h

theorem Options.fits_of_ofJson {bytes : List UInt8} {o : Options}
    (h : Options.ofJson bytes = .ok o) : o.Fits :=
  fits_of_text Read.produces_options h

/-- **Texts and values round-trip**: a project, or options, is read back from its text just if its
sizes and indices are within machine words, which holds of all that is read from any text; and
members that a text leaves out stand for their defaults. -/
theorem files_roundTrip :
    (∀ p : Project, Project.ofJson (textBytes p.toJson) = .ok p ↔ p.Fits) ∧
      (∀ o : Options, Options.ofJson (textBytes o.toJson) = .ok o ↔ o.Fits) ∧
      (∀ bytes p, Project.ofJson bytes = .ok p → Project.ofJson (textBytes p.toJson) = .ok p) ∧
      (∀ bytes o, Options.ofJson bytes = .ok o → Options.ofJson (textBytes o.toJson) = .ok o) ∧
      Read.FileDefaults :=
  ⟨fun _ => ⟨Project.fits_of_ofJson, Project.ofJson_toJson⟩,
    fun _ => ⟨Options.fits_of_ofJson, Options.ofJson_toJson⟩,
    fun _ _ h => Project.ofJson_toJson (Project.fits_of_ofJson h),
    fun _ _ h => Options.ofJson_toJson (Options.fits_of_ofJson h), Read.fileDefaults⟩

/-- A project for several chips. Its song has positions of their own lengths and grooves, an order
with a gap, and cells with few and with all attributes. -/
def quartet : Project :=
  { name := "quartet \"♪\""
    expansions := { vrc7 := true, fds := true, n163 := true }
    n163Channels := 4
    tempoMode := .groove
    machine := .dual
    instruments := [
      { name := "lead", kind := .apu
        envelopes := {
          volume := some { values := [15, 12, 8, 0], loopPoint := some 1, release := some 3 }
          pitch := some { values := [-1, 1], loopPoint := some 0, relative := true }
          duty := some { values := [2] } } },
      { name := "organ", kind := .vrc7 0 #v[0x21, 0x61, 0x1E, 0x17, 0xF0, 0x7F, 0x00, 0x17] },
      { name := "whistle", kind := .fds 300 20 5
        envelopes := {
          fdsWaveform := some { values := [0, 32, 63] }
          fdsModulation := some { values := [0, 1, 7] } } },
      { name := "reed", kind := .n163 16 4
        envelopes := { n163Waveform := some { values := [0, 5, 10, 15] } } }]
    arpeggios := [{ name := "minor", envelope := { values := [0, 3, 7], loopPoint := some 0 } }]
    samples := [{ name := "kick", data := [0x55, 0xAA] }]
    mappings := [{ note := 24, sample := 0, pitch := 12, looping := true }]
    songs := [
      { name := "one", length := 3, patternLength := 16
        overrides := [
          { position := 0, groove := some [7, 5] },
          { position := 2, length := some 8, groove := some [4] }]
        loopPoint := some 1, tempo := 125, groove := [6, 6, 7]
        tracks := [
          { channel := .square1
            patterns := [{}, { notes := [
              { row := 0, value := some (.pitch 36), instrument := some 0, arpeggio := some 0
                volume := some 12, finePitch := some (-3), vibrato := some ⟨4, 2⟩
                slideTo := some 40, duty := some 1, noteDelay := some 2, cutDelay := some 3
                speed := some 5, deltaCounter := some 64, fdsModSpeed := some 300
                fdsModDepth := some 9 },
              { row := 4, value := some .release },
              { row := 8, value := some .stop, volume := some 0 }] }]
            order := [some 1, none, some 0] },
          { channel := .n163Wave4 }] }] }

/-- Options that all differ from their defaults. -/
def sweptOptions : Options :=
  { kernel := .classic, dialect := .asm6, labelStem := "music", songs := some [0, 2]
    dataBase := 0xA000, sampleBase := 0xE000, compression := .sweep 4 32, machine := some .pal }

/-- The project and the options are read back, and an empty object is the project of defaults. -/
theorem files_roundTrip_quartet :
    Project.ofJson (textBytes quartet.toJson) = .ok quartet ∧
      Options.ofJson (textBytes sweptOptions.toJson) = .ok sweptOptions ∧
      Project.ofJson [0x7B, 0x7D] = .ok {} ∧
      Project.ofJson (textBytes (Project.toJson {})) = .ok {} := by
  obtain ⟨hproject, hoptions, hagain, -, -⟩ := files_roundTrip
  exact ⟨(hproject quartet).2 (by decide), (hoptions sweptOptions).2 (by decide), rfl,
    hagain [0x7B, 0x7D] {} rfl⟩

end Chiptune
