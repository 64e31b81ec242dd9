import Chiptune.Proofs.Drafts
import Chiptune.Proofs.DroppedTracks
import Chiptune.Proofs.PatchLoads
import Chiptune.Proofs.StoppedRows

/-!
# Outcomes of a compile

A compile has a result, or it refuses the project with a reason. Its data is generated or refused,
its listing exists and names only what it defines, and a listing of this kind is assembled or does
not fit the address space.

* `compile_resolves`: **no name is ever missing**, whatever is selected and compressed.
* `compile_total`: **every compile ends with a result or a refusal**, unless a song asks for more
  rows than any memory holds, and no step of it goes past what it reads (`InBounds`).
-/

set_option autoImplicit false

namespace Chiptune

namespace Compile

variable {o : Options} {p : Project}

/-! ## Listings -/

/-- The listing of a compile defines all that it names. -/
theorem generate_isClosed {g : Generated} (h : generate o p = .ok g) :
    ∃ lines, (packedLayout o p g).lines = .ok lines ∧ Listing.IsClosed lines := by
  have hsupplied := generate_supplied h
  obtain ⟨lines, hlines⟩ := hsupplied.exists_lines
  exact ⟨lines, hlines, hsupplied.isClosed hlines⟩

/-- **A compile is refused, if it has no result, or some song is too large for any memory.** -/
theorem compile_refuses (o : Options) (p : Project) :
    Refuses (∃ song ∈ p.songs, song.IsHuge) (compile o p) := by
  unfold compile
  refine (generate_refuses o p).bind fun g hg => ?_
  obtain ⟨lines, hlines, hclosed⟩ := generate_isClosed hg
  have halign : ∀ n, .align n ∈ lines → max 1 n % 0x100000000 ≠ 0 := by
    intro n hn
    rw [Layout.align_of_mem_lines hlines hn]
    decide
  simp only [layout_packed, hlines]
  have himage := Image.assemble_refuses hclosed halign o.dataBase
  exact (himage.mono False.elim).bind fun _ _ => .ok _

/-- **Every name is defined.** No compile ends because a name is missing: once its data is
generated, it has a listing in which each label that a word names is defined. -/
theorem compile_resolves (o : Options) (p : Project) :
    (∀ name, compile o p ≠ .error (.unresolvedSymbol name)) ∧
      ∀ g, generate o p = .ok g → ∃ lines, (packedLayout o p g).lines = .ok lines ∧
        ∀ ws, .words ws ∈ lines → ∀ name, .label name ∈ ws → .label name ∈ lines := by
  refine ⟨fun name h => ?_, fun g hg => generate_isClosed hg⟩
  rcases compile_refuses o p _ h with hrefusal | ⟨hmemory, -⟩
  · cases hrefusal
  · cases hmemory

/-- The streams of a short tune jump to a loop label. -/
theorem exists_jump_shortTune : ∃ g lines, generate shortTuneTwice shortTune = .ok g ∧
    (packedLayout shortTuneTwice shortTune g).lines = .ok lines ∧
    .words [.label "song0_sq1_loop"] ∈ lines := by
  obtain ⟨g, hg, hjumps⟩ := @exists_of_buckets shortTuneTwice shortTune
    (fun g => (packedLayout shortTuneTwice shortTune g).lines.toOption.any
      (·.contains (.words [.label "song0_sq1_loop"]))) rfl (by decide +kernel)
  obtain ⟨lines, hlines, hmem⟩ := ok_of_any hjumps
  exact ⟨g, lines, hg, hlines, List.contains_iff_mem.1 hmem⟩

/-- The label is defined in the same listing. -/
theorem compile_resolves_shortTune : ∃ g lines, generate shortTuneTwice shortTune = .ok g ∧
    (packedLayout shortTuneTwice shortTune g).lines = .ok lines ∧
    .words [.label "song0_sq1_loop"] ∈ lines ∧ .label "song0_sq1_loop" ∈ lines := by
  obtain ⟨g, lines, hg, hlines, hwords⟩ := exists_jump_shortTune
  obtain ⟨lines', hlines', hclosed⟩ := (compile_resolves shortTuneTwice shortTune).2 g hg
  obtain rfl := Except.ok.inj (hlines.symm.trans hlines')
  exact ⟨g, lines, hg, hlines, hwords, hclosed _ hwords _ List.mem_cons_self⟩

end Compile

/-! ## Bounds -/

/-- All tracks of a song together have a speed, or none, for every row. -/
theorem Song.length_speeds (s : Song) {track : Option Track} {rows : List Row}
    {speeds : List (Option UInt8)} (h : s.rows track = .ok rows)
    (hspeeds : s.speeds rows.length = .ok speeds) : speeds.length = s.rowCount := by
  rw [speeds_of_rows h] at hspeeds
  rw [length_rowSpeeds hspeeds, s.length_places]

theorem Stream.length_loadsOf {p : Project} {song : Song} {loads : List (List Nat)}
    (h : PatchTimeline.loadsOf p song = .ok loads) :
    loads = [] ∨ loads.length = song.rowCount := by
  rcases loadsOf_ok h with rfl | ⟨-, rfl⟩
  · exact .inr (by rw [loadRows, List.length_map, List.length_range, song.length_places])
  · exact .inl rfl

/-- Tables of waves whose buckets hold indices of their entries. -/
structure WaveTables.Indexed (w : WaveTables) : Prop where
  fdsWaves : w.fdsWaves.Indexed
  fdsMods : w.fdsMods.Indexed
  n163Waves : w.n163Waves.Indexed

theorem WaveTables.Indexed.empty : ({} : WaveTables).Indexed :=
  ⟨UniqueTable.indexed_empty, UniqueTable.indexed_empty, UniqueTable.indexed_empty⟩

theorem WaveTables.Indexed.add {w : WaveTables} (h : w.Indexed) (i : Instrument) (log : Log) :
    (w.add i log).2.1.Indexed := by
  have hintern : ∀ (t : UniqueTable) bytes tag, t.Indexed → (t.intern bytes tag).2.Indexed :=
    fun t bytes tag => (t.grows_intern bytes tag).indexed
  obtain ⟨name, kind, envelopes⟩ := i
  cases kind with
  | fds modSpeed modDepth modDelay =>
    exact ⟨hintern _ _ _ h.fdsWaves, hintern _ _ _ h.fdsMods, h.n163Waves⟩
  | n163 wavePos waveSize => exact ⟨h.fdsWaves, h.fdsMods, hintern _ _ _ h.n163Waves⟩
  | _ => exact h

namespace Compile

variable {o : Options} {p : Project}

theorem indexed_addInstruments {kernel : Kernel} {slots : Slots} {first : Nat}
    {instruments : List Instrument} {t t' : Tables} {w w' : WaveTables}
    {records : List (Option InstrumentRecord)}
    (h : addInstruments kernel slots first instruments t w = .ok (records, t', w'))
    (hw : w.Indexed) : w'.Indexed := by
  induction instruments generalizing first t w records with
  | nil =>
    cases h
    exact hw
  | cons i rest ih =>
    rw [addInstruments] at h
    split at h
    · obtain ⟨⟨others, u, u'⟩, hrest, h⟩ := bind_ok h
      cases h
      exact ih hrest hw
    · obtain ⟨⟨curves, u⟩, -, h⟩ := bind_ok h
      obtain ⟨⟨others, u', x⟩, hrest, h⟩ := bind_ok h
      cases h
      exact ih hrest (hw.add i _)

/-- What the rows of a stream send, as far as they come, if the tables are those of a compile. -/
theorem visits_prepare {r : Prepared} (h : prepare o p = .ok r) {job : Stream.Job}
    (hkernel : job.kernel = o.kernel) (hslots : job.slots = r.slots)
    (harpeggios : job.arpeggios = r.arpeggios) {t : Tables} (ht : r.tables.Extends t)
    {rows : List Row} {speeds : List (Option UInt8)} {loopAt : Option Nat} {v : Stream.Voice}
    (hv : Stream.Visits job rows speeds loopAt 0 rows speeds (Stream.opening job rows t) v) :
    (∀ i ∈ v.row, i.Encodes o.kernel ∧ i.IsShortest o.kernel) ∧
      v.tables.curves.Indexed ∧ v.tables.grooves.Indexed := by
  obtain ⟨-, -, log, log', u, hassign, -, -⟩ := prepare_ok h
  have hbounded := Slots.bounded_assign p o.kernel log
  rw [hassign, ← hslots] at hbounded
  have hb := (backs_prepare h).mono ht
  rw [← harpeggios] at hb
  have hready := hv.ready hbounded (Stream.ready_opening hb)
  rw [← hkernel]
  exact ⟨fun i hi => ⟨(hready.row i hi).encodes, (hready.row i hi).shortest⟩,
    hready.backed.curves, hready.backed.indexed⟩

theorem indexed_prepare {r : Prepared} (h : prepare o p = .ok r) :
    r.tables.curves.Indexed ∧ r.tables.grooves.Indexed ∧ r.waves.Indexed := by
  have hb := backs_prepare h
  obtain ⟨-, -, log, log', t, -, hinstruments, -⟩ := prepare_ok h
  exact ⟨hb.curves, hb.indexed, indexed_addInstruments hinstruments .empty⟩

/-- Samples are placed at addresses that their register can name. -/
theorem sampleBase_prepare {r : Prepared} (h : prepare o p = .ok r) {s : Sample}
    (hs : s ∈ p.samples) : sampleRegisterBase ≤ o.sampleBase := by
  obtain ⟨k, hk⟩ := List.mem_iff_getElem?.1 hs
  obtain ⟨start, hstart⟩ := exists_sampleOffset hk
  exact (checkSamples_ok (prepare_ok h).2.1 hk hstart).1

/-- **Bounds of the steps that have a value on both sides of them.** A step without one is a fault,
and no compile has any; these have to be told apart from the outcome. -/
structure InBounds (o : Options) (p : Project) : Prop where
  /-- Lists that are read row by row have a value for each row of their song: the rows of all its
  tracks, its speeds, and the loads of the shared patch. -/
  rows : ∀ song ∈ p.songs, ∀ track rows, song.rows track = .ok rows →
    rows.length = song.rowCount ∧
      ∀ speeds, song.speeds rows.length = .ok speeds → speeds.length = song.rowCount
  loads : ∀ song ∈ p.songs, ∀ loads, PatchTimeline.loadsOf p song = .ok loads →
    loads = [] ∨ loads.length = song.rowCount
  /-- Each row sends only instructions that the kernel has a byte for, and no note as an operation
  that has a byte of its own. This is so row by row, also in a stream that a later row stops. -/
  streams : ∀ r, prepare o p = .ok r → ∀ index song patches channel t, r.tables.Extends t →
    ∀ rows speeds loopAt v,
      Stream.Visits (streamJob o p r.slots r.arpeggios index song patches channel) rows speeds
        loopAt 0 rows speeds
        (Stream.opening (streamJob o p r.slots r.arpeggios index song patches channel) rows t) v →
      (∀ i ∈ v.row, i.Encodes o.kernel ∧ i.IsShortest o.kernel) ∧
        v.tables.curves.Indexed ∧ v.tables.grooves.Indexed
  /-- Runs of empty rows have a byte for every count. -/
  emptyRows : ∀ count, ∀ i ∈ Stream.emptyRuns o.kernel count, i.Encodes o.kernel
  /-- The buckets of each table hold indices of its entries only. -/
  tables : ∀ r, prepare o p = .ok r → r.tables.curves.Indexed ∧ r.tables.grooves.Indexed ∧
    r.waves.Indexed
  /-- A curve that is encoded has a last frame. -/
  curves : ∀ e : Envelope, e.isWellFormed = true → e.values.take Curve.maxLength ≠ []
  /-- A sample has a last byte, and its address is at or behind the first that can be named. -/
  samples : ∀ s ∈ p.samples, 0 < (paddedSample s.data).length ∧
    ∀ r, prepare o p = .ok r → sampleRegisterBase ≤ o.sampleBase
  /-- Every word that is filled in lies inside of its segment. -/
  holes : ∀ g lines d, generate o p = .ok g → (packedLayout o p g).lines = .ok lines →
    lines.foldlM Image.Draft.addLine { music := { base := o.dataBase } } = .ok d →
    ∀ hole ∈ d.holes, hole.offset + 2 ≤ d.size hole.segment

/-- **No step of a compile goes past a bound.** -/
theorem inBounds (o : Options) (p : Project) : InBounds o p where
  rows song _ _ _ h := ⟨song.length_rows_eq h, fun _ hspeeds => song.length_speeds h hspeeds⟩
  loads _ _ _ h := Stream.length_loadsOf h
  streams _ h _ _ _ _ _ ht _ _ _ _ hv := visits_prepare h rfl rfl rfl ht hv
  emptyRows count := Stream.encodes_emptyRuns o.kernel count
  tables _ h := indexed_prepare h
  curves e h hnil := by
    have hpos := e.pos_of_isWellFormed h
    rw [Envelope.levels, List.length_map, show e.values.take 240 = [] from hnil] at hpos
    cases hpos
  samples s hs := by
    obtain ⟨n, -, hlength, -⟩ := length_paddedSample s.data
    exact ⟨by omega, fun _ h => sampleBase_prepare h hs⟩
  holes _ _ _ _ _ hd := (Image.Draft.tracks_lines (Image.Draft.tracks_start _) hd).within

/-- **Every compile ends with a result or a refusal.** Only a song with more rows than any memory
holds has neither, and no step of a compile leaves its bounds. -/
theorem compile_total (o : Options) (p : Project) :
    ((∃ score, compile o p = .ok score) ∨ (∃ e, compile o p = .error e ∧ e.isRefusal = true) ∨
      compile o p = .error (.fault .memory) ∧ ∃ song ∈ p.songs, song.IsHuge) ∧ InBounds o p := by
  refine ⟨?_, inBounds o p⟩
  cases h : compile o p with
  | ok score => exact .inl ⟨score, rfl⟩
  | error e =>
    rcases compile_refuses o p e h with hrefusal | ⟨rfl, hhuge⟩
    · exact .inr (.inl ⟨e, rfl, hrefusal⟩)
    · exact .inr (.inr ⟨rfl, hhuge⟩)

end Compile

end Chiptune
