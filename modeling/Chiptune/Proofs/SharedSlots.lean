import Chiptune.Proofs.PlayedInstruments

/-!
# Slots that instruments share

An instrument is looked up by its index when a stream is written, and by its slot when it is played.
Every instrument opcode of a stream stands for an instrument that fits the channel
(`Stream.generate_standsFor`), and its slot leads to the record of an instrument of the same table.
Both are the same instrument, unless the table was full: then the slot is 0, and the record that of
the first instrument of the table, which may be one for another chip.

* `Compile.compile_selects`: **what an instrument opcode selects**.
-/

set_option autoImplicit false

namespace Chiptune

namespace Stream

variable {job : Job} {rows : List Row} {speeds : List (Option UInt8)} {loopAt : Option Nat}

/-- A slot stands for an instrument of the project that fits the channel. -/
def StandsFor (job : Job) (slot i : Nat) : Prop :=
  ∃ instrument, job.project.instruments[i]? = some instrument ∧
    instrument.kind.fits job.channel = true ∧ job.slots.slot i = some slot

/-- A row loads the slot of the instrument that it plays. -/
theorem Holding.played_of_mem_loads {h : Holding} {index slot : Nat} {row : Row}
    (hslot : slot ∈ h.loads job index row) :
    ∃ i, h.played job row = some i ∧ job.slots.slot i = some slot := by
  obtain ⟨i, hsent, hi⟩ := Option.bind_eq_some_iff.1 (Option.mem_toList.1 hslot)
  exact ⟨i, (Option.filter_eq_some_iff.1 hsent).1, hi⟩

/-- What a row that was empty loads. -/
theorem Voice.Loads.standsFor {v u : Voice} {index : Nat} {row : Row} (h : v.Loads job index row u)
    (hv : v.row = []) {slot : Nat} (hslot : .instrument slot ∈ u.row) :
    ∃ i, StandsFor job slot i := by
  have hloads : slot ∈ v.holding.loads job index row := by
    have hmem : slot ∈ u.loads := List.mem_flatMap.2 ⟨_, hslot, List.mem_singleton.2 rfl⟩
    rwa [h.loads, Voice.loads, hv] at hmem
  obtain ⟨i, hplayed, hi⟩ := Holding.played_of_mem_loads hloads
  obtain ⟨instrument, slot', hinstrument, hfits, hslot'⟩ := h.hasSlot i hplayed
  exact ⟨i, instrument, hinstrument, hfits, hi⟩

/-- All instruments that the rows of a run load fit the channel. -/
theorem Runs.standsFor {index : Nat} {rest : List Row} {later : List (Option UInt8)} {v v' : Voice}
    {pieces : List Piece} (h : Runs job rows speeds loopAt index rest later v pieces v')
    (hv : v.row = []) : ∀ is advances, .row is advances ∈ pieces → ∀ slot, .instrument slot ∈ is →
      ∃ i, StandsFor job slot i := by
  induction h with
  | nil => simp
  | cons hrow _ ih =>
    intro is advances hmem slot hslot
    rcases mem_marked_row hmem with ⟨rfl, rfl⟩ | hmem
    · exact (Voice.loads_processRow hrow).standsFor (by rw [row_marked, hv]) hslot
    · exact ih rfl is advances hmem slot hslot

/-- **Every instrument opcode of a stream stands for an instrument that fits the channel.** -/
theorem generate_standsFor {t t' : Tables} {tokens : List Token}
    (h : generate job t = (.ok tokens, t')) {slot : Nat}
    (hslot : .instrument slot ∈ disassemble job.kernel tokens) : ∃ i, StandsFor job slot i := by
  obtain ⟨rows, speeds, loopAt, pieces, v, -, -, -, hruns, htokens, -⟩ := generate_ok h
  rw [disassemble_encodeAll (hruns.hasOperands rfl v) htokens] at hslot
  rcases List.mem_append.1 hslot with hslot | hslot
  · refine forall_join (P := fun i => ∀ slot, i = .instrument slot → ∃ i, StandsFor job slot i)
      job.kernel nofun nofun nofun ?_ {} _ hslot slot rfl
    rintro is advances hmem i hi slot rfl
    exact hruns.standsFor rfl is advances hmem slot hi
  · unfold lastInstruction at hslot
    split at hslot <;> simp at hslot

end Stream

/-- At a slot of an instrument table is the record of an instrument. -/
def Image.HasRecord (image : Image) (o : Options) (t : InstrumentTable) (slot : Nat)
    (i : Instrument) : Prop :=
  ∃ base, image.address ((Layout.tableLabel t).text o.labelStem) = some base ∧
    i.IsRecord o.kernel (image.memory o.dataBase) (base.toNat + Layout.recordSize t * slot)

/-- What an opcode with a slot selects on a channel: it stands for an instrument that fits the
channel, and leads to the record of an instrument of the same table. -/
structure Selects (o : Options) (p : Project) (slots : Slots) (image : Image) (channel : Channel)
    (slot meant found : Nat) : Prop where
  /-- The instrument that the opcode was written for. -/
  fits : ∃ i, p.instruments[meant]? = some i ∧ i.kind.fits channel = true ∧
    slots.slot meant = some slot
  /-- The instrument whose record is found: the slots of a table go to its instruments in order. -/
  record : ∃ i table, p.instruments[found]? = some i ∧ channel.instrumentTable = some table ∧
    (Slots.seekers p o.kernel table p.instruments.length)[slot]? = some found ∧
    image.HasRecord o table slot i
  /-- They differ only if the table was full. -/
  same : found = meant ∨ slot = 0 ∧ Slots.Overflows p o.kernel meant

namespace Compile

open Chiptune.Stream

variable {o : Options} {p : Project}

/-- The slot of an instrument leads to a record of the same table. -/
theorem generate_selects {g : Generated} {lines : List Line} {image : Image}
    (hg : generate o p = .ok g) (hlines : (packedLayout o p g).lines = .ok lines)
    (himage : Image.assemble lines o.dataBase = .ok image) {channel : Channel} {slot meant : Nat}
    {i : Instrument} (hi : p.instruments[meant]? = some i) (hfits : i.kind.fits channel = true)
    (hslot : g.slots.slot meant = some slot) :
    ∃ found, Selects o p g.slots image channel slot meant found := by
  have hgiven := generate_given hg
  have hchannel := InstrumentKind.table_of_fits hfits
  obtain ⟨found, hfound, hsame⟩ := hgiven.exists_named hi hslot
  have hseeks : (Slots.seekers p o.kernel i.kind.table p.instruments.length)[slot]? =
      some found := by
    rw [hgiven.table, List.getElem?_take] at hfound
    split at hfound
    · exact hfound
    · cases hfound
  obtain ⟨other, hother, htable⟩ := Slots.mem_seekers (List.mem_of_getElem? hseeks)
  rw [← htable] at hfound
  have hrecord := record_named hg hlines himage hother hfound
  rw [htable] at hrecord
  exact ⟨found, ⟨i, hi, hfits, hslot⟩, ⟨other, _, hother, hchannel, hseeks, hrecord⟩, hsame⟩

/-- **What an instrument opcode selects.** Every instrument opcode that a channel executes stands
for an instrument that fits the channel, and selects the record of this instrument, or, if the table
was full when it was the instrument's turn, that of the first instrument of the table. -/
theorem compile_selects {score : Score} (h : compile o p = .ok score) :
    ∃ g selected, generate o p = .ok g ∧ selectedSongs o p = .ok selected ∧
      ∀ (i index j : Nat) (channel : Channel), selected[i]? = some index →
        p.channels[j]? = some channel →
        ∃ song stream, g.songs[i]? = some song ∧ song.streams[j]? = some stream ∧
          Plays o g.tables score.image i j stream.tokens ∧
          ∀ slot, .instrument slot ∈ disassemble o.kernel stream.tokens →
            ∃ meant found, Selects o p g.slots score.image channel slot meant found := by
  obtain ⟨g, lines, hg, hlines, himage⟩ := compile_ok h
  obtain ⟨hselected, arpeggios, t, -, hall⟩ := generate_ok hg
  refine ⟨g, _, hg, hselected, fun i index j channel hi hj => ?_⟩
  rw [List.getElem?_map] at hi
  obtain ⟨song, hsong, rfl⟩ := Option.map_eq_some_iff.1 hi
  have hfrom := hall song (List.mem_of_getElem? hsong)
  rw [← hfrom.channels, List.getElem?_map] at hj
  obtain ⟨stream, hstream, rfl⟩ := Option.map_eq_some_iff.1 hj
  obtain ⟨source, patches, -, -, -, -, hgenerates⟩ := hfrom.streams
  obtain ⟨u, u', hgenerate, -, -⟩ := hgenerates stream (List.mem_of_getElem? hstream)
  refine ⟨song, stream, hsong, hstream, plays_song hg hlines himage hsong hstream,
    fun slot hslot => ?_⟩
  obtain ⟨meant, instrument, hinstrument, hfits, hmeant⟩ := generate_standsFor hgenerate hslot
  obtain ⟨found, hselects⟩ := generate_selects hg hlines himage hinstrument hfits hmeant
  exact ⟨meant, found, hselects⟩

/-- An instrument with a built-in patch. -/
def flute : Instrument := { name := "flute", kind := .vrc7 4 (Vector.replicate 8 0) }

/-- An instrument for another chip. -/
def saw : Instrument := { name := "saw", kind := .vrc6 }

/-- A project whose extended table is full before it is the turn of the instrument that is played.
-/
def crowded : Project :=
  { name := "crowded"
    expansions := { vrc6 := true, vrc7 := true }
    instruments := List.replicate 32 flute ++ [saw]
    songs := [
      { name := "one", length := 1, patternLength := 1
        tracks := [{
          channel := .vrc6Square1
          patterns := [{ notes := [
            { row := 0, value := some (.pitch 36), instrument := some 32 }] }]
          order := [some 0] }] }] }

/-- Whether a stream has an instrument opcode with a slot. -/
def loadsSlot (k : Kernel) (slot : Nat) (s : ChannelStream) : Bool :=
  (disassemble k s.tokens).contains (.instrument slot)

/-- The stream of the VRC6 channel has an instrument opcode with slot 0. -/
theorem exists_crowded : ∃ score g song stream, compile uncompressed crowded = .ok score ∧
    generate uncompressed crowded = .ok g ∧ g.songs[0]? = some song ∧
    song.streams[5]? = some stream ∧ .instrument 0 ∈ disassemble .extended stream.tokens := by
  obtain ⟨g, hg, htest⟩ := @exists_of_buckets uncompressed crowded (fun g =>
    assembles (packedLayout uncompressed crowded g) &&
      (g.songs[0]?.bind (·.streams[5]?)).any (loadsSlot .extended 0)) rfl (by decide +kernel)
  obtain ⟨hassembles, hloads⟩ := Bool.and_eq_true_iff.1 htest
  obtain ⟨score, hscore⟩ := compile_succeeds hg hassembles
  obtain ⟨stream, hstream, hslot⟩ := (Option.any_eq_true _ _).1 hloads
  obtain ⟨song, hsong, hstream⟩ := Option.bind_eq_some_iff.1 hstream
  exact ⟨score, g, song, stream, hscore, hg, hsong, hstream, List.contains_iff_mem.1 hslot⟩

/-- The opcode with slot 0 that this channel executes was written for some instrument, and leads to
the record of one. -/
theorem compile_selects_crowded : ∃ (score : Score) (g : Generated) (stream : ChannelStream)
    (meant found : Nat), compile uncompressed crowded = .ok score ∧
      generate uncompressed crowded = .ok g ∧ .instrument 0 ∈ disassemble .extended stream.tokens ∧
      Plays uncompressed g.tables score.image 0 5 stream.tokens ∧
      Selects uncompressed crowded g.slots score.image .vrc6Square1 0 meant found := by
  obtain ⟨score, g, song, stream, hscore, hg, hsong, hstream, hslot⟩ := exists_crowded
  obtain ⟨g', selected, hg', hselected, hall⟩ := compile_selects hscore
  obtain rfl := Except.ok.inj (hg.symm.trans hg')
  obtain rfl : [0] = selected := Except.ok.inj hselected
  obtain ⟨song', stream', hsong', hstream', hplays, hselects⟩ := hall 0 0 5 .vrc6Square1 rfl rfl
  obtain rfl := Option.some.inj (hsong.symm.trans hsong')
  obtain rfl := Option.some.inj (hstream.symm.trans hstream')
  obtain ⟨meant, found, h⟩ := hselects 0 hslot
  exact ⟨score, g, stream, meant, found, hscore, hg, hslot, hplays, h⟩

/-- A record with a patch is none with the address of a curve. -/
theorem not_hasRecord_saw {image : Image} (h : image.HasRecord uncompressed .extended 0 flute) :
    ¬ image.HasRecord uncompressed .extended 0 saw := by
  rintro ⟨base', hbase', -, -, -, ⟨target, hword, hcurve⟩, -⟩
  obtain ⟨base, hbase, -, -, -, hpatch⟩ := h
  obtain rfl := Option.some.inj (hbase.symm.trans hbase')
  -- read as an address, the patch lies before the music
  have hfour := Player.readWord_of_reads (w := 4) ⟨hpatch.1, hpatch.2.1, trivial⟩
  obtain rfl := Option.some.inj (hfour.symm.trans hword)
  have hdefault : saw.curve uncompressed.kernel .duty = Curve.default := rfl
  rw [hdefault] at hcurve
  cases hcurve.1

/-- On this channel an opcode selects the record of an instrument that does not fit, and the
instrument that fits has no record there. -/
theorem not_selects_crowded : ∃ (score : Score) (g : Generated) (stream : ChannelStream),
    compile uncompressed crowded = .ok score ∧ generate uncompressed crowded = .ok g ∧
      crowded.channels[5]? = some .vrc6Square1 ∧
      Plays uncompressed g.tables score.image 0 5 stream.tokens ∧
      .instrument 0 ∈ disassemble .extended stream.tokens ∧
      score.image.HasRecord uncompressed .extended 0 flute ∧
      flute.kind.fits .vrc6Square1 = false ∧
      ∀ i ∈ crowded.instruments, i.kind.fits .vrc6Square1 = true →
        ¬ score.image.HasRecord uncompressed .extended 0 i := by
  obtain ⟨score, g, song, stream, hscore, hg, hsong, hstream, hslot⟩ := exists_crowded
  obtain ⟨g', lines, hg', hlines, himage⟩ := compile_ok hscore
  obtain rfl := Except.ok.inj (hg.symm.trans hg')
  have hfirst : (g.slots.table .extended)[0]? = some 0 := by
    rw [(generate_given hg).table]
    decide +kernel
  have hrecord : score.image.HasRecord uncompressed .extended 0 flute :=
    record_named hg hlines himage (n := 0) rfl hfirst
  refine ⟨score, g, stream, hscore, hg, rfl, plays_song hg hlines himage hsong hstream, hslot,
    hrecord, rfl, fun i hi hfits => ?_⟩
  rcases List.mem_append.1 hi with hi | hi
  · rw [(List.mem_replicate.1 hi).2] at hfits
    cases hfits
  · rw [List.mem_singleton.1 hi]
    exact not_hasRecord_saw hrecord

end Compile

end Chiptune
