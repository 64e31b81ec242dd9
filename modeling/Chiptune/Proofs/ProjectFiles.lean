import Chiptune.Options.File
import Chiptune.Proofs.JsonFields

/-!
# Files are read back as they were written

Every part of a project is read back from what is written for it, if its sizes and indices are
within machine words (`Project.Fits`); the same holds for options (`Options.Fits`). A record is read
member by member: an optional attribute is left out when it is not set, and the record that the
reader starts from has none either. The fields of an instrument's kind stand beside its type, and
are kept until the type is known (`Read.readsAs_tagged`).

* `EnvelopeSet.ofList_toList`: a set of envelopes is made up of its entries.
* `Read.readsAs_note`, `Read.readsAs_instrumentKind`, `Read.readsAs_song`: the parts of a project.
* `Read.readsAs_project`, `Read.readsAs_options`: **what is written is read back.**
-/

set_option autoImplicit false

namespace Chiptune

open Json Json.Reader

/-! ## Sizes and indices within machine words

A part of a file fits if each size and index in it is within a machine word; its other numbers have
types of their own.
-/

/-- Size or index within a machine word. -/
abbrev IsWord (n : Nat) : Prop := n < Numeral.wordRange

structure Envelope.Fits (e : Envelope) : Prop where
  loopPoint : ∀ i ∈ e.loopPoint, IsWord i
  release : ∀ i ∈ e.release, IsWord i

def EnvelopeSet.Fits (s : EnvelopeSet) : Prop := ∀ kind, ∀ e ∈ s.get? kind, e.Fits

def Instrument.Fits (i : Instrument) : Prop := i.envelopes.Fits

def Arpeggio.Fits (a : Arpeggio) : Prop := a.envelope.Fits

def SampleMapping.Fits (m : SampleMapping) : Prop := IsWord m.sample

structure Note.Fits (n : Note) : Prop where
  row : IsWord n.row
  instrument : ∀ i ∈ n.instrument, IsWord i
  arpeggio : ∀ i ∈ n.arpeggio, IsWord i

def Pattern.Fits (p : Pattern) : Prop := ∀ n ∈ p.notes, n.Fits

structure Track.Fits (t : Track) : Prop where
  patterns : ∀ p ∈ t.patterns, p.Fits
  order : ∀ o ∈ t.order, ∀ i ∈ o, IsWord i

structure PositionOverride.Fits (o : PositionOverride) : Prop where
  position : IsWord o.position
  length : ∀ n ∈ o.length, IsWord n

structure Song.Fits (s : Song) : Prop where
  length : IsWord s.length
  patternLength : IsWord s.patternLength
  overrides : ∀ o ∈ s.overrides, o.Fits
  loopPoint : ∀ i ∈ s.loopPoint, IsWord i
  tracks : ∀ t ∈ s.tracks, t.Fits

structure Project.Fits (p : Project) : Prop where
  n163Channels : IsWord p.n163Channels
  instruments : ∀ i ∈ p.instruments, i.Fits
  arpeggios : ∀ a ∈ p.arpeggios, a.Fits
  mappings : ∀ m ∈ p.mappings, m.Fits
  songs : ∀ s ∈ p.songs, s.Fits

def Compression.Fits : Compression → Prop
  | .off => True
  | .fixed threshold => IsWord threshold
  | .sweep low high => IsWord low ∧ IsWord high

structure Options.Fits (o : Options) : Prop where
  songs : ∀ is ∈ o.songs, ∀ i ∈ is, IsWord i
  compression : o.compression.Fits

/-! Whether a file fits can be decided, part by part. -/

instance Envelope.decidableFits (e : Envelope) : Decidable e.Fits :=
  decidable_of_iff ((∀ i ∈ e.loopPoint, IsWord i) ∧ ∀ i ∈ e.release, IsWord i)
    ⟨fun ⟨hloop, hrelease⟩ => ⟨hloop, hrelease⟩, fun ⟨hloop, hrelease⟩ => ⟨hloop, hrelease⟩⟩

instance EnvelopeSet.decidableFits (s : EnvelopeSet) : Decidable s.Fits :=
  decidable_of_iff (∀ kind ∈ EnvelopeKind.all, ∀ e ∈ s.get? kind, e.Fits)
    ⟨fun h kind => h kind (by cases kind <;> decide), fun h kind _ => h kind⟩

instance Instrument.decidableFits (i : Instrument) : Decidable i.Fits :=
  inferInstanceAs (Decidable i.envelopes.Fits)

instance Arpeggio.decidableFits (a : Arpeggio) : Decidable a.Fits :=
  inferInstanceAs (Decidable a.envelope.Fits)

instance SampleMapping.decidableFits (m : SampleMapping) : Decidable m.Fits :=
  inferInstanceAs (Decidable (IsWord m.sample))

instance Note.decidableFits (n : Note) : Decidable n.Fits :=
  decidable_of_iff (IsWord n.row ∧ (∀ i ∈ n.instrument, IsWord i) ∧ ∀ i ∈ n.arpeggio, IsWord i)
    ⟨fun ⟨hrow, hinstrument, harpeggio⟩ => ⟨hrow, hinstrument, harpeggio⟩,
      fun ⟨hrow, hinstrument, harpeggio⟩ => ⟨hrow, hinstrument, harpeggio⟩⟩

instance Pattern.decidableFits (p : Pattern) : Decidable p.Fits :=
  inferInstanceAs (Decidable (∀ n ∈ p.notes, n.Fits))

instance Track.decidableFits (t : Track) : Decidable t.Fits :=
  decidable_of_iff ((∀ p ∈ t.patterns, p.Fits) ∧ ∀ o ∈ t.order, ∀ i ∈ o, IsWord i)
    ⟨fun ⟨hpatterns, horder⟩ => ⟨hpatterns, horder⟩, fun ⟨hpatterns, horder⟩ => ⟨hpatterns, horder⟩⟩

instance PositionOverride.decidableFits (o : PositionOverride) : Decidable o.Fits :=
  decidable_of_iff (IsWord o.position ∧ ∀ n ∈ o.length, IsWord n)
    ⟨fun ⟨hposition, hlength⟩ => ⟨hposition, hlength⟩,
      fun ⟨hposition, hlength⟩ => ⟨hposition, hlength⟩⟩

instance Song.decidableFits (s : Song) : Decidable s.Fits :=
  decidable_of_iff (IsWord s.length ∧ IsWord s.patternLength ∧ (∀ o ∈ s.overrides, o.Fits) ∧
      (∀ i ∈ s.loopPoint, IsWord i) ∧ ∀ t ∈ s.tracks, t.Fits)
    ⟨fun ⟨hlength, hpattern, hoverrides, hloop, htracks⟩ =>
        ⟨hlength, hpattern, hoverrides, hloop, htracks⟩,
      fun ⟨hlength, hpattern, hoverrides, hloop, htracks⟩ =>
        ⟨hlength, hpattern, hoverrides, hloop, htracks⟩⟩

instance Project.decidableFits (p : Project) : Decidable p.Fits :=
  decidable_of_iff (IsWord p.n163Channels ∧ (∀ i ∈ p.instruments, i.Fits) ∧
      (∀ a ∈ p.arpeggios, a.Fits) ∧ (∀ m ∈ p.mappings, m.Fits) ∧ ∀ s ∈ p.songs, s.Fits)
    ⟨fun ⟨hchannels, hinstruments, harpeggios, hmappings, hsongs⟩ =>
        ⟨hchannels, hinstruments, harpeggios, hmappings, hsongs⟩,
      fun ⟨hchannels, hinstruments, harpeggios, hmappings, hsongs⟩ =>
        ⟨hchannels, hinstruments, harpeggios, hmappings, hsongs⟩⟩

instance Compression.decidableFits : (c : Compression) → Decidable c.Fits
  | .off => inferInstanceAs (Decidable True)
  | .fixed threshold => inferInstanceAs (Decidable (IsWord threshold))
  | .sweep low high => inferInstanceAs (Decidable (IsWord low ∧ IsWord high))

instance Options.decidableFits (o : Options) : Decidable o.Fits :=
  decidable_of_iff ((∀ is ∈ o.songs, ∀ i ∈ is, IsWord i) ∧ o.compression.Fits)
    ⟨fun ⟨hsongs, hcompression⟩ => ⟨hsongs, hcompression⟩,
      fun ⟨hsongs, hcompression⟩ => ⟨hsongs, hcompression⟩⟩

/-! ## What is written is read back -/

/-- The envelopes of a set, listed by kind, make up the set. -/
theorem EnvelopeSet.ofList_toList (s : EnvelopeSet) : ofList s.toList = s := by
  obtain ⟨volume, arpeggio, pitch, duty, fdsWaveform, fdsModulation, n163Waveform⟩ := s
  cases volume <;> cases arpeggio <;> cases pitch <;> cases duty <;> cases fdsWaveform <;>
    cases fdsModulation <;> cases n163Waveform <;> rfl

namespace Read

theorem readsAs_expansion (e : Expansion) : ReadsAs expansion (.string e.key) e :=
  readsAs_enum (by cases e <;> rfl)

theorem readsAs_channel (c : Channel) : ReadsAs channel (.string c.key) c :=
  readsAs_enum (by cases c <;> rfl)

theorem readsAs_tempoMode (m : TempoMode) : ReadsAs tempoMode (.string m.key) m :=
  readsAs_enum (by cases m <;> rfl)

theorem readsAs_machine (m : Machine) : ReadsAs machine (.string m.key) m :=
  readsAs_enum (by cases m <;> rfl)

theorem readsAs_kernel (k : Kernel) : ReadsAs kernel (.string k.name) k :=
  readsAs_enum (by cases k <;> rfl)

theorem readsAs_dialect (d : Dialect) : ReadsAs dialect (.string d.key) d :=
  readsAs_enum (by cases d <;> rfl)

theorem readsAs_index {i : Option Nat} (h : ∀ n ∈ i, IsWord n) :
    ∀ n ∈ i, ReadsAs Reader.nat (Json.nat n) n :=
  fun n hn => readsAs_nat (h n hn)

theorem readsAs_uint8s (bs : List UInt8) :
    ReadsAs (list Reader.uint8) (ofList Write.uint8 bs) bs :=
  readsAs_list fun b _ => readsAs_uint8 b

theorem readsAs_envelope {e : Envelope} (h : e.Fits) : ReadsAs envelope (Write.envelope e) e := by
  simp only [Write.envelope, List.append_assoc, List.singleton_append]
  exact readsAs_record (by decide) <|
    .required (readsAs_list fun v _ => readsAs_int8 v) <|
    .ifSome rfl (readsAs_index h.loopPoint) nofun <|
    .ifSome rfl (readsAs_index h.release) nofun <|
    .optional (readsAs_bool e.relative) <| .nil e

/-! ### Envelopes of an instrument -/

theorem lookup_envelopeKind (kind : EnvelopeKind) :
    lookup EnvelopeKind.all EnvelopeKind.key kind.key = .ok kind := by
  cases kind <;> rfl

theorem mapM_envelopes {entries : List (EnvelopeKind × Envelope)} (h : ∀ e ∈ entries, e.2.Fits) :
    (memberSources (entries.map fun e => (e.1.key, Write.envelope e.2))).mapM (fun entry => do
      let kind ← lookup EnvelopeKind.all EnvelopeKind.key (← entry.1)
      let e ← envelope entry.2
      Except.ok (kind, e)) = .ok entries := by
  induction entries with
  | nil => rfl
  | cons e entries ih =>
    have hread := (readsAs_envelope (h e List.mem_cons_self)).reads
    rw [List.map_cons, memberSources, List.mapM_cons,
      ih fun e he => h e (List.mem_cons_of_mem _ he)]
    simp only [bind, Except.bind, lookup_envelopeKind, hread]
    rfl

theorem fitsMembers_envelopes {entries : List (EnvelopeKind × Envelope)}
    (h : ∀ e ∈ entries, e.2.Fits) :
    FitsMembers (entries.map fun e => (e.1.key, Write.envelope e.2)) := by
  induction entries with
  | nil => trivial
  | cons e entries ih =>
    exact ⟨(readsAs_envelope (h e List.mem_cons_self)).fits,
      ih fun e he => h e (List.mem_cons_of_mem _ he)⟩

theorem readsAs_envelopeSet {s : EnvelopeSet} (h : s.Fits) :
    ReadsAs envelopeSet (Write.envelopeSet s) s := by
  have hentries : ∀ entry ∈ s.toList, entry.2.Fits := by
    intro entry hentry
    obtain ⟨kind, -, hkind⟩ := List.mem_filterMap.1 hentry
    obtain ⟨e, he, rfl⟩ := Option.map_eq_some_iff.1 hkind
    exact h kind e he
  refine ⟨fitsMembers_envelopes hentries, ?_⟩
  rw [Write.envelopeSet, source, envelopeSet, mapM_envelopes hentries]
  exact congrArg Except.ok (EnvelopeSet.ofList_toList s)

/-! ### Kinds of instruments -/

theorem keep_number {n : Int} (h : (Json.number n).Fits) (depth : Nat) :
    (Json.number n).source.keep depth = .ok () := by
  rw [source, Source.keep, overflows_wholeNumeral h]
  rfl

theorem keep_uint8s (bs : List UInt8) (depth : Nat) :
    (ofList Write.uint8 bs).source.keep (depth + 1) = .ok () := by
  have hitems : Source.keepItems depth (sources (bs.map Write.uint8)) = .ok () := by
    induction bs with
    | nil => rfl
    | cons b bs ih =>
      rw [List.map_cons, sources, Source.keepItems, Write.uint8, Json.nat,
        keep_number (readsAs_uint8 b).fits, ih]
      rfl
  rw [ofList, source, Source.keep, Nat.add_sub_cancel, hitems]
  rfl

/-- The step of the search for the type of an instrument. -/
def findType (depth : Nat) (tag : Option (String × Reader InstrumentKind)) (entry : Entry) :
    Except JsonProblem (Option (String × Reader InstrumentKind)) := do
  let key ← entry.1
  if key = "type" then
    if Option.isSome tag then .error .mismatch
    else
      let read ← kindType entry.2
      .ok (some read)
  else
    entry.2.keep depth
    .ok tag

/-- Whether a member is not the type. -/
def isField : Entry → Bool
  | (.ok key, _) => key != "type"
  | _ => true

theorem instrumentKind_object (depth : Nat) (entries : List Entry) (stop : Stop) :
    instrumentKind depth (.object entries stop) = (do
      let tag ← entries.foldlM (findType depth) none
      Source.stopAt stop
      match tag with
      | some tag => kept tag.2 (.object (entries.filter isField) .closed)
      | none => .error .mismatch) := rfl

theorem findType_field {depth : Nat} {tag : Option (String × Reader InstrumentKind)} {name : String}
    {s : Source} (hname : name ≠ "type") (hkeep : s.keep depth = .ok ()) :
    findType depth tag (.ok name, s) = .ok tag := by
  simp only [findType, bind, Except.bind, if_neg hname, hkeep]

theorem foldlM_fields {depth : Nat} {tag : Option (String × Reader InstrumentKind)}
    {members : List (String × Json)}
    (h : ∀ m ∈ members, m.1 ≠ "type" ∧ m.2.source.keep depth = .ok ()) :
    (memberSources members).foldlM (findType depth) tag = .ok tag := by
  induction members with
  | nil => rfl
  | cons m members ih =>
    obtain ⟨hne, hkeep⟩ := h m List.mem_cons_self
    rw [memberSources, List.foldlM_cons, findType_field hne hkeep]
    exact ih fun m hm => h m (List.mem_cons_of_mem _ hm)

/-- A kind is read from its type and the members beside it. -/
theorem readsAs_tagged {depth : Nat} {name : String} {read : Reader InstrumentKind}
    {members : List (String × Json)} {k : InstrumentKind}
    (hname : lookup kinds Prod.fst name = .ok (name, read))
    (hmembers : ∀ m ∈ members, m.1 ≠ "type" ∧ m.2.source.keep depth = .ok ())
    (h : ReadsAs read (.object members) k) :
    ReadsAs (instrumentKind depth) (.object (("type", .string name) :: members)) k := by
  refine ⟨⟨trivial, h.fits⟩, ?_⟩
  have htype : findType depth none (.ok "type", .string (.ok name)) = .ok (some (name, read)) := by
    simp only [findType, kindType, Reader.string, hname, bind, Except.bind]
    rfl
  have hfilter : (memberSources (("type", .string name) :: members)).filter isField =
      memberSources members := by
    rw [memberSources, List.filter_cons_of_neg (by simp [isField]), memberSources_eq,
      List.filter_eq_self]
    intro entry hentry
    obtain ⟨m, hm, rfl⟩ := List.mem_map.1 hentry
    simpa [isField] using (hmembers m hm).1
  rw [source, instrumentKind_object, hfilter, memberSources, List.foldlM_cons, source, htype]
  simp only [bind, Except.bind, foldlM_fields hmembers, Source.stopAt]
  have hread := h.reads
  rw [source] at hread
  rw [kept, hread]
  rfl


theorem readsAs_vrc7Kind (patch : UInt8) (regs : Vector UInt8 8) :
    ReadsAs vrc7Kind
      (.object [("patch", Write.uint8 patch), ("regs", ofList Write.uint8 regs.toList)])
      (.vrc7 patch regs) :=
  readsAs_bind (readsAs_record (by decide) <| .required (readsAs_uint8 patch) <|
    .optional (readsAs_vector regs fun b _ => readsAs_uint8 b) <| .nil (patch, regs)) rfl

theorem readsAs_fdsKind (speed : UInt16) (depth delay : UInt8) :
    ReadsAs fdsKind (.object [("mod_speed", Write.uint16 speed), ("mod_depth", Write.uint8 depth),
      ("mod_delay", Write.uint8 delay)]) (.fds speed depth delay) :=
  readsAs_bind (readsAs_record (by decide) <| .optional (readsAs_uint16 speed) <|
    .optional (readsAs_uint8 depth) <| .optional (readsAs_uint8 delay) <|
    .nil (speed, depth, delay)) rfl

theorem readsAs_n163Kind (pos size : UInt8) :
    ReadsAs n163Kind (.object [("wave_pos", Write.uint8 pos), ("wave_size", Write.uint8 size)])
      (.n163 pos size) :=
  readsAs_bind (readsAs_record (by decide) <| .required (readsAs_uint8 pos) <|
    .required (readsAs_uint8 size) <| .nil (pos, size)) rfl

theorem readsAs_plainKind (k : InstrumentKind) : ReadsAs (plainKind k) (.object []) k :=
  readsAs_record (by decide) (.nil k)

theorem readsAs_instrumentKind (depth : Nat) (k : InstrumentKind) :
    ReadsAs (instrumentKind (depth + 1)) (Write.instrumentKind k) k := by
  have huint8 : ∀ b, (Write.uint8 b).source.keep (depth + 1) = .ok () := fun b =>
    keep_number (readsAs_uint8 b).fits _
  cases k with
  | apu => exact readsAs_tagged rfl (by simp) (readsAs_plainKind .apu)
  | vrc6 => exact readsAs_tagged rfl (by simp) (readsAs_plainKind .vrc6)
  | vrc7 patch regs =>
    exact readsAs_tagged rfl (by simp [huint8, keep_uint8s]) (readsAs_vrc7Kind patch regs)
  | fds speed modDepth delay =>
    have hspeed : (Write.uint16 speed).source.keep (depth + 1) = .ok () :=
      keep_number (readsAs_uint16 speed).fits _
    exact readsAs_tagged rfl (by simp [huint8, hspeed]) (readsAs_fdsKind speed modDepth delay)
  | mmc5 => exact readsAs_tagged rfl (by simp) (readsAs_plainKind .mmc5)
  | n163 pos size => exact readsAs_tagged rfl (by simp [huint8]) (readsAs_n163Kind pos size)
  | s5b => exact readsAs_tagged rfl (by simp) (readsAs_plainKind .s5b)

/-! ### Instruments, arpeggios and samples -/

theorem readsAs_instrument {i : Instrument} (h : i.Fits) :
    ReadsAs (instrument 2) (Write.instrument i) i :=
  readsAs_record (by decide) <| .required (readsAs_string i.name) <|
    .required (readsAs_instrumentKind 122 i.kind) <|
    .optional (readsAs_envelopeSet h) <| .nil i

theorem readsAs_arpeggio {a : Arpeggio} (h : a.Fits) : ReadsAs arpeggio (Write.arpeggio a) a :=
  readsAs_record (by decide) <| .required (readsAs_string a.name) <|
    .required (readsAs_envelope h) <| .nil a

theorem readsAs_sample (s : Sample) : ReadsAs sample (Write.sample s) s :=
  readsAs_record (by decide) <| .required (readsAs_string s.name) <|
    .required (readsAs_uint8s s.data) <| .nil s

theorem readsAs_sampleMapping {m : SampleMapping} (h : m.Fits) :
    ReadsAs sampleMapping (Write.sampleMapping m) m :=
  readsAs_record (by decide) <| .required (readsAs_uint8 m.note) <| .required (readsAs_nat h) <|
    .optional (readsAs_uint8 m.pitch) <| .optional (readsAs_bool m.looping) <| .nil m

/-! ### Songs -/

theorem readsAs_noteValue (v : NoteValue) : ReadsAs noteValue (Write.noteValue v) v := by
  cases v with
  | pitch value => exact readsAs_payload rfl ((readsAs_uint8 value).map NoteValue.pitch)
  | stop => exact readsAs_variant rfl
  | release => exact readsAs_variant rfl

theorem noteValue_ne_null (v : NoteValue) : Write.noteValue v ≠ .null := by
  cases v <;> nofun

theorem readsAs_vibrato (v : Vibrato) : ReadsAs vibrato (Write.vibrato v) v :=
  readsAs_record (by decide) <| .required (readsAs_uint8 v.speed) <|
    .required (readsAs_uint8 v.depth) <| .nil v

theorem readsAs_note {n : Note} (h : n.Fits) : ReadsAs note (Write.note n) n := by
  rw [Write.note, ← List.append_nil (Write.ifSome "fds_mod_depth" Write.uint8 n.fdsModDepth)]
  simp only [List.append_assoc, List.singleton_append]
  exact readsAs_record (by decide) <|
    .required (readsAs_nat h.row) <|
    .ifSome rfl (fun v _ => readsAs_noteValue v) noteValue_ne_null <|
    .ifSome rfl (readsAs_index h.instrument) nofun <|
    .ifSome rfl (readsAs_index h.arpeggio) nofun <|
    .ifSome rfl (fun b _ => readsAs_uint8 b) nofun <|
    .ifSome rfl (fun i _ => readsAs_int8 i) nofun <|
    .ifSome rfl (fun v _ => readsAs_vibrato v) nofun <|
    .ifSome rfl (fun b _ => readsAs_uint8 b) nofun <|
    .ifSome rfl (fun b _ => readsAs_uint8 b) nofun <|
    .ifSome rfl (fun b _ => readsAs_uint8 b) nofun <|
    .ifSome rfl (fun b _ => readsAs_uint8 b) nofun <|
    .ifSome rfl (fun b _ => readsAs_uint8 b) nofun <|
    .ifSome rfl (fun b _ => readsAs_uint8 b) nofun <|
    .ifSome rfl (fun w _ => readsAs_uint16 w) nofun <|
    .ifSome rfl (fun b _ => readsAs_uint8 b) nofun <| .nil n

theorem readsAs_pattern {p : Pattern} (h : p.Fits) : ReadsAs pattern (Write.pattern p) p :=
  readsAs_record (by decide) <| .optional (readsAs_list fun n hn => readsAs_note (h n hn)) <| .nil p

theorem readsAs_track {t : Track} (h : t.Fits) : ReadsAs track (Write.track t) t :=
  readsAs_record (by decide) <| .required (readsAs_channel t.channel) <|
    .optional (readsAs_list fun p hp => readsAs_pattern (h.patterns p hp)) <|
    .optional (readsAs_list fun o ho => readsAs_option (readsAs_index (h.order o ho)) nofun) <|
    .nil t

theorem readsAs_positionOverride {o : PositionOverride} (h : o.Fits) :
    ReadsAs positionOverride (Write.positionOverride o) o := by
  rw [Write.positionOverride, ← List.append_nil (Write.ifSome "groove" _ o.groove)]
  simp only [List.cons_append, List.nil_append]
  exact readsAs_record (by decide) <|
    .required (readsAs_nat h.position) <|
    .ifSome rfl (readsAs_index h.length) nofun <|
    .ifSome rfl (fun g _ => readsAs_uint8s g) nofun <| .nil o

/-- The overrides of a song are left out when there are none. -/
theorem given_overrides {os : List PositionOverride} (hos : ∀ o ∈ os, o.Fits)
    {fields : List (Reader.Field Song)} {s c : Song} {members : List (String × Json)}
    (hnone : s.overrides = []) (hrest : Given fields { s with overrides := os } members c) :
    Given (optional "position_overrides" (list positionOverride) (fun s v =>
      { s with overrides := v }) :: fields) s (Write.overrides os ++ members) c := by
  cases os with
  | nil =>
    rw [← hnone] at hrest
    exact .omitted rfl hrest
  | cons o os =>
    exact .optional (readsAs_list fun o ho => readsAs_positionOverride (hos o ho)) hrest

theorem readsAs_song {s : Song} (h : s.Fits) : ReadsAs song (Write.song s) s := by
  simp only [Write.song, List.append_assoc, List.cons_append, List.nil_append]
  exact readsAs_record (by decide) <|
    .required (readsAs_string s.name) <|
    .required (readsAs_nat h.length) <|
    .required (readsAs_nat h.patternLength) <|
    given_overrides h.overrides rfl <|
    .ifSome rfl (readsAs_index h.loopPoint) nofun <|
    .optional (readsAs_uint8 s.speed) <|
    .optional (readsAs_uint16 s.tempo) <|
    .optional (readsAs_uint8s s.groove) <|
    .required (readsAs_list fun t ht => readsAs_track (h.tracks t ht)) <| .nil s

/-! ### Projects and options -/

theorem readsAs_project {p : Project} (h : p.Fits) : ReadsAs project (Write.project p) p := by
  refine readsAs_record (by decide) <|
    .optional (readsAs_string p.name) <|
    .optional (readsAs_list fun e _ => readsAs_expansion e) <|
    .optional (readsAs_nat h.n163Channels) <|
    .optional (readsAs_tempoMode p.tempoMode) <|
    .optional (readsAs_machine p.machine) <|
    .optional (readsAs_list fun i hi => readsAs_instrument (h.instruments i hi)) <|
    .optional (readsAs_list fun a ha => readsAs_arpeggio (h.arpeggios a ha)) <|
    .optional (readsAs_list fun s _ => readsAs_sample s) <|
    .optional (readsAs_list fun m hm => readsAs_sampleMapping (h.mappings m hm)) <|
    .optional (readsAs_list fun s hs => readsAs_song (h.songs s hs)) ?_
  dsimp only
  rw [ExpansionSet.ofList_toList]
  exact .nil p

theorem readsAs_sweep {low high : Nat} (hlow : IsWord low) (hhigh : IsWord high) :
    ReadsAs sweep (.object [("min", Json.nat low), ("max", Json.nat high)]) (.sweep low high) :=
  readsAs_bind (readsAs_record (by decide) <| .required (readsAs_nat hlow) <|
    .required (readsAs_nat hhigh) <| .nil (low, high)) rfl

theorem readsAs_compression {c : Compression} (h : c.Fits) :
    ReadsAs compression (Write.compression c) c := by
  cases c with
  | off => exact readsAs_variant rfl
  | fixed threshold => exact readsAs_payload rfl ((readsAs_nat h).map Compression.fixed)
  | sweep low high => exact readsAs_payload rfl (readsAs_sweep h.1 h.2)

theorem readsAs_options {o : Options} (h : o.Fits) : ReadsAs options (Write.options o) o :=
  readsAs_record (by decide) <|
    .optional (readsAs_kernel o.kernel) <|
    .optional (readsAs_dialect o.dialect) <|
    .optional (readsAs_string o.labelStem) <|
    .optional (readsAs_option (fun is his => readsAs_list fun i hi =>
      readsAs_nat (h.songs is his i hi)) nofun) <|
    .optional (readsAs_uint16 o.dataBase) <|
    .optional (readsAs_uint16 o.sampleBase) <|
    .optional (readsAs_compression h.compression) <|
    .optional (readsAs_option (fun m _ => readsAs_machine m) nofun) <| .nil o

end Read
end Chiptune
