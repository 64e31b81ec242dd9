import Chiptune.Proofs.Slots
import Chiptune.Proofs.TablePlaces

/-!
# Instrument records

The record of an instrument has a word for each of its curves, and behind them what belongs to the
chip of the instrument (`Instrument.IsRecord`). All records of a table have one size, so a slot
leads to its record.

* `addInstruments_ok`: the tables have the curves and waves of every instrument with a slot.
* `Compile.record_named`: **a slot of a table leads to the record of the instrument there**.
-/

set_option autoImplicit false

namespace Chiptune

/-! ## Curves and waves of an instrument -/

/-- Curve of an envelope of an instrument: the default one if there is no envelope, or none that the
encoder has a curve for. -/
def Curve.ofEnvelope (e : Option Envelope) (kind : EnvelopeKind) (kernel : Kernel) : List UInt8 :=
  match e with
  | none => Curve.default
  | some e => ((encodeInstrument e kind kernel {}).toOption.bind Prod.fst).getD Curve.default

theorem Curve.ofEnvelope_eq {e : Envelope} {kind : EnvelopeKind} {kernel : Kernel} {log log' : Log}
    {curve : Option (List UInt8)} (h : encodeInstrument e kind kernel log = .ok (curve, log')) :
    ofEnvelope (some e) kind kernel = curve.getD Curve.default := by
  have hsame := encodeInstrument_log e kind kernel {} log
  rw [h] at hsame
  unfold ofEnvelope
  cases hempty : encodeInstrument e kind kernel {} with
  | error fault =>
    rw [hempty] at hsame
    cases hsame
  | ok result =>
    rw [hempty] at hsame
    obtain rfl : result.1 = curve := Except.ok.inj hsame
    simp [hempty, Except.toOption]

namespace Instrument

variable (i : Instrument)

/-- Curve of a kind. -/
def curve (kernel : Kernel) (kind : EnvelopeKind) : List UInt8 :=
  Curve.ofEnvelope (i.envelope kind) kind kernel

/-- Envelope of a waveform; without one the wave is flat. -/
def waveform (kind : EnvelopeKind) : Envelope := (i.envelope kind).getD { values := [] }

/-- Packed FDS wave. -/
def fdsWave : List UInt8 := (Waveform.fdsWave (i.waveform .fdsWaveform) {}).1

/-- Packed FDS modulation table. -/
def fdsMod : List UInt8 := (Waveform.fdsMod (i.waveform .fdsModulation) {}).1

/-- Packed N163 wave of a number of samples. -/
def n163Wave (size : UInt8) : List UInt8 :=
  (Waveform.n163Wave (i.waveform .n163Waveform) size.toNat {}).1

end Instrument

/-- The waves of an instrument, as far as its kind has any, are where some indices say. -/
def InstrumentWaves.Describes (waves : InstrumentWaves) (i : Instrument) (w : WaveTables) : Prop :=
  match i.kind with
  | .fds .. => ∃ wave modulation, waves = .fds wave modulation ∧
      w.fdsWaves.get? wave = some i.fdsWave ∧ w.fdsMods.get? modulation = some i.fdsMod
  | .n163 _ size => ∃ wave, waves = .n163 wave ∧ w.n163Waves.get? wave = some (i.n163Wave size)
  | _ => waves = .none

/-- The curves and waves of an instrument are where its record says. -/
structure InstrumentRecord.Describes (r : InstrumentRecord) (i : Instrument) (kernel : Kernel)
    (t : Tables) (w : WaveTables) : Prop where
  volume : t.curves.get? r.curves.volume = some (i.curve kernel .volume)
  arpeggio : t.curves.get? r.curves.arpeggio = some (i.curve kernel .arpeggio)
  pitch : t.curves.get? r.curves.pitch = some (i.curve kernel .pitch)
  duty : t.curves.get? r.curves.duty = some (i.curve kernel .duty)
  dutyInit : r.curves.dutyInit = i.initialDuty
  waves : r.waves.Describes i w

/-- What some wave tables hold, others hold under the same numbers. -/
structure WaveTables.Extends (w w' : WaveTables) : Prop where
  fdsWaves : ∀ n bytes, w.fdsWaves.get? n = some bytes → w'.fdsWaves.get? n = some bytes
  fdsMods : ∀ n bytes, w.fdsMods.get? n = some bytes → w'.fdsMods.get? n = some bytes
  n163Waves : ∀ n bytes, w.n163Waves.get? n = some bytes → w'.n163Waves.get? n = some bytes

namespace WaveTables.Extends

variable {w w' w'' : WaveTables}

theorem refl (w : WaveTables) : w.Extends w := ⟨fun _ _ => id, fun _ _ => id, fun _ _ => id⟩

theorem trans (h : w.Extends w') (h' : w'.Extends w'') : w.Extends w'' :=
  ⟨fun n b hn => h'.fdsWaves n b (h.fdsWaves n b hn),
    fun n b hn => h'.fdsMods n b (h.fdsMods n b hn),
    fun n b hn => h'.n163Waves n b (h.n163Waves n b hn)⟩

end WaveTables.Extends

variable {kernel : Kernel} {t t' : Tables} {w w' : WaveTables} {i : Instrument}

theorem InstrumentWaves.Describes.mono {waves : InstrumentWaves} (h : waves.Describes i w)
    (hw : w.Extends w') : waves.Describes i w' := by
  obtain ⟨name, kind, envelopes⟩ := i
  cases kind with
  | fds modSpeed modDepth modDelay =>
    obtain ⟨wave, modulation, hwaves, hwave, hmod⟩ := h
    exact ⟨wave, modulation, hwaves, hw.fdsWaves _ _ hwave, hw.fdsMods _ _ hmod⟩
  | n163 wavePos waveSize =>
    obtain ⟨wave, hwaves, hwave⟩ := h
    exact ⟨wave, hwaves, hw.n163Waves _ _ hwave⟩
  | _ => exact h

theorem InstrumentRecord.Describes.mono {r : InstrumentRecord} (h : r.Describes i kernel t w)
    (ht : t.Extends t') (hw : w.Extends w') : r.Describes i kernel t' w' where
  volume := ht.curves _ _ h.volume
  arpeggio := ht.curves _ _ h.arpeggio
  pitch := ht.curves _ _ h.pitch
  duty := ht.curves _ _ h.duty
  dutyInit := h.dutyInit
  waves := h.waves.mono hw

/-- The waves of an instrument are in the tables behind it. -/
theorem WaveTables.add_ok (w : WaveTables) (i : Instrument) (log : Log) :
    (w.add i log).1.Describes i (w.add i log).2.1 ∧ w.Extends (w.add i log).2.1 := by
  obtain ⟨name, kind, envelopes⟩ := i
  cases kind with
  | fds modSpeed modDepth modDelay =>
    exact ⟨⟨_, _, rfl, UniqueTable.get?_intern_self _ _ _, UniqueTable.get?_intern_self _ _ _⟩,
      fun _ _ => UniqueTable.get?_intern _ _, fun _ _ => UniqueTable.get?_intern _ _,
      fun _ _ => id⟩
  | n163 wavePos waveSize =>
    exact ⟨⟨_, rfl, UniqueTable.get?_intern_self _ _ _⟩, fun _ _ => id, fun _ _ => id,
      fun _ _ => UniqueTable.get?_intern _ _⟩
  | _ => exact ⟨rfl, .refl w⟩

namespace Compile

/-- The curve of an envelope is where its index says. -/
theorem addEnvelope_ok {e : Option Envelope} {kind : EnvelopeKind} {index : Nat} (ht : t.Sound)
    (h : t.addEnvelope e kind kernel = .ok (index, t')) :
    t'.curves.get? index = some (Curve.ofEnvelope e kind kernel) := by
  unfold Tables.addEnvelope at h
  split at h
  · cases h
    exact ht.default
  · obtain ⟨⟨curve, log⟩, hcurve, h⟩ := bind_ok h
    rw [Curve.ofEnvelope_eq hcurve]
    cases curve with
    | none =>
      cases h
      exact ht.default
    | some bytes =>
      cases h
      exact UniqueTable.get?_intern_self _ _ _

theorem addCurves_ok {curves : InstrumentCurves} (ht : t.Sound)
    (h : InstrumentCurves.add i kernel t = .ok (curves, t')) {waves : InstrumentWaves}
    (hwaves : waves.Describes i w) :
    t.Extends t' ∧ InstrumentRecord.Describes { curves, waves } i kernel t' w := by
  obtain ⟨⟨volume, t₁⟩, hvolume, h⟩ := bind_ok h
  obtain ⟨⟨arpeggio, t₂⟩, harpeggio, h⟩ := bind_ok h
  obtain ⟨⟨pitch, t₃⟩, hpitch, h⟩ := bind_ok h
  obtain ⟨⟨duty, t₄⟩, hduty, h⟩ := bind_ok h
  cases h
  have h₁ := extends_addEnvelope hvolume
  have h₂ := extends_addEnvelope harpeggio
  have h₃ := extends_addEnvelope hpitch
  have h₄ := extends_addEnvelope hduty
  have ht₁ := h₁.sound ht
  have ht₂ := h₂.sound ht₁
  have ht₃ := h₃.sound ht₂
  refine ⟨(h₁.trans h₂).trans (h₃.trans h₄), ?_, ?_, ?_, addEnvelope_ok ht₃ hduty, rfl, hwaves⟩
  · exact ((h₂.trans h₃).trans h₄).curves _ _ (addEnvelope_ok ht hvolume)
  · exact (h₃.trans h₄).curves _ _ (addEnvelope_ok ht₁ harpeggio)
  · exact h₄.curves _ _ (addEnvelope_ok ht₂ hpitch)

/-- **What is recorded of some instruments**: those with a slot have a record, whose curves and
waves are in the tables, and the others have none. -/
theorem addInstruments_ok {slots : Slots} {first : Nat} {instruments : List Instrument}
    {records : List (Option InstrumentRecord)} (ht : t.Sound)
    (h : addInstruments kernel slots first instruments t w = .ok (records, t', w')) :
    t.Extends t' ∧ w.Extends w' ∧ ∀ n i, instruments[n]? = some i →
      ∃ record, records[n]? = some record ∧
        (record.isSome = (slots.slot (first + n)).isSome) ∧
        ∀ r, record = some r → r.Describes i kernel t' w' := by
  induction instruments generalizing first t w records with
  | nil =>
    cases h
    exact ⟨.refl _, .refl _, by simp⟩
  | cons i rest ih =>
    have hshift : ∀ n, first + 1 + n = first + (n + 1) := by omega
    unfold addInstruments at h
    split at h
    · rename_i hslot
      obtain ⟨⟨others, u, x⟩, hothers, h⟩ := bind_ok h
      cases h
      obtain ⟨htables, hwaves, hall⟩ := ih ht hothers
      refine ⟨htables, hwaves, fun n j hj => ?_⟩
      cases n with
      | zero => exact ⟨none, rfl, by simp [hslot], by simp⟩
      | succ n =>
        simp only [hshift] at hall
        exact hall n j hj
    · rename_i slot hslot
      obtain ⟨⟨curves, u⟩, hcurves, h⟩ := bind_ok h
      obtain ⟨⟨others, u', x⟩, hothers, h⟩ := bind_ok h
      cases h
      obtain ⟨hdescribes, hwaves⟩ := w.add_ok i u.log
      obtain ⟨hcurved, hrecord⟩ := addCurves_ok ht hcurves hdescribes
      have hlogged : t.Extends { u with log := (w.add i u.log).2.2 } :=
        hcurved.trans (u.extends_logging fun _ => _)
      obtain ⟨htables, hmore, hall⟩ := ih (hlogged.sound ht) hothers
      refine ⟨hlogged.trans htables, hwaves.trans hmore, fun n j hj => ?_⟩
      cases n with
      | zero =>
        obtain rfl := Option.some.inj hj
        refine ⟨_, rfl, by simp [hslot], fun r hr => ?_⟩
        obtain rfl := Option.some.inj hr
        exact hrecord.mono ((u.extends_logging fun _ => _).trans htables) hmore
      | succ n =>
        simp only [hshift] at hall
        exact hall n j hj

end Compile

/-! ## Records in an image -/

/-- A word of the memory leads to some bytes. -/
def Player.LeadsTo (mem : Memory) (address : Nat) (bytes : List UInt8) : Prop :=
  ∃ target, readWord mem address = some target ∧ Reads mem target.toNat bytes

/-- What the record of an instrument holds behind its first three words. -/
def Instrument.HasSettings (i : Instrument) (kernel : Kernel) (mem : Player.Memory)
    (address : Nat) : Prop :=
  match i.kind with
  | .apu | .mmc5 =>
    Player.LeadsTo mem address (i.curve kernel .duty) ∧
      Player.Reads mem (address + 2) [i.initialDuty, 0]
  | .vrc6 | .s5b =>
    Player.LeadsTo mem address (i.curve kernel .duty) ∧
      Player.Reads mem (address + 2) [i.initialDuty, 0, 0, 0, 0, 0, 0, 0]
  | .vrc7 patch regs => Player.Reads mem address (patch :: 0 :: regs.toList)
  | .fds modSpeed modDepth modDelay =>
    Player.LeadsTo mem address i.fdsWave ∧ Player.LeadsTo mem (address + 2) i.fdsMod ∧
      Player.Reads mem (address + 4) (Image.wordBytes modSpeed ++ [modDepth, modDelay, 0, 0])
  | .n163 wavePos waveSize =>
    Player.LeadsTo mem address (i.n163Wave waveSize) ∧
      Player.Reads mem (address + 2) [wavePos, waveSize, 0, 0, 0, 0, 0, 0]

/-- At an address is the record of an instrument. -/
structure Instrument.IsRecord (i : Instrument) (kernel : Kernel) (mem : Player.Memory)
    (address : Nat) : Prop where
  volume : Player.LeadsTo mem address (i.curve kernel .volume)
  arpeggio : Player.LeadsTo mem (address + 2) (i.curve kernel .arpeggio)
  pitch : Player.LeadsTo mem (address + 4) (i.curve kernel .pitch)
  settings : i.HasSettings kernel mem (address + 6)

namespace Layout

/-- Label of an instrument table. -/
def tableLabel : InstrumentTable → Label
  | .primary => .instruments
  | .extended => .extendedInstruments

/-- Bytes of a record of an instrument table. -/
def recordSize : InstrumentTable → Nat
  | .primary => primaryRecordSize
  | .extended => extendedRecordSize

/-- Lines of a record of an instrument table. -/
def recordOf (l : Layout) : InstrumentTable → Instrument → InstrumentRecord → List Line
  | .primary => l.primaryRecord
  | .extended => l.extendedRecord

variable {l : Layout} {tables : List Item} {image : Image}

/-- **Both instrument tables are where their labels are.** -/
theorem Assembled.table_address (h : l.Assembled tables image) (hmarks : l.StreamsMarkLoops)
    (t : InstrumentTable) :
    ∃ address, image.address ((tableLabel t).text l.stem) = some address ∧
      Player.Reads (image.memory l.dataBase) address.toNat (Image.bytesOf image.address
        ((l.slots.table t).flatMap (l.instrumentItems (l.recordOf t)))) := by
  cases t with
  | primary => exact h.records_address hmarks
  | extended => exact h.extendedRecords_address hmarks

theorem items_primaryRecord (i : Instrument) (r : InstrumentRecord) :
    itemsOf (l.primaryRecord i r) = (l.curveWords r.curves).map .word ++
      (.word (l.labelWord (.envelope r.curves.duty)) :: [r.curves.dutyInit, 0].map .byte) := by
  simp only [primaryRecord, itemsOf_append, Listing.items_words, Listing.items_bytes]
  rfl

/-- The items of a record of the extended table behind its first three words. -/
def extendedItems (l : Layout) (i : Instrument) (r : InstrumentRecord) : List Item :=
  match i.kind, r.waves with
  | .vrc7 patch regs, _ => (patch :: 0 :: regs.toList).map .byte
  | .fds modSpeed modDepth modDelay, .fds wave modulation =>
    .word (l.labelWord (.fdsWave wave)) :: .word (l.labelWord (.fdsMod modulation)) ::
      .word (.value modSpeed) :: [modDepth, modDelay, 0, 0].map .byte
  | .n163 wavePos waveSize, .n163 wave =>
    .word (l.labelWord (.n163Wave wave)) :: [wavePos, waveSize, 0, 0, 0, 0, 0, 0].map .byte
  | _, _ =>
    .word (l.labelWord (.envelope r.curves.duty)) ::
      [r.curves.dutyInit, 0, 0, 0, 0, 0, 0, 0].map .byte

theorem items_extendedRecord (i : Instrument) (r : InstrumentRecord) :
    itemsOf (l.extendedRecord i r) = (l.curveWords r.curves).map .word ++ l.extendedItems i r := by
  obtain ⟨name, kind, envelopes⟩ := i
  obtain ⟨curves, waves⟩ := r
  cases kind <;> cases waves <;>
    simp only [extendedRecord, itemsOf_append, Listing.items_words, Listing.items_bytes] <;> rfl

/-- **All records of a table have one size.** -/
theorem size_record (t : InstrumentTable) (i : Instrument) (r : InstrumentRecord) :
    Image.sizeOf (itemsOf (l.recordOf t i r)) = recordSize t := by
  cases t with
  | primary =>
    rw [recordOf, items_primaryRecord]
    rfl
  | extended =>
    rw [recordOf, items_extendedRecord, Image.sizeOf_append]
    unfold extendedItems
    split
    · rw [Image.sizeOf_bytes, List.length_cons, List.length_cons, Vector.length_toList]
      rfl
    all_goals rfl

theorem instrumentItems_eq {record : Instrument → InstrumentRecord → List Line} {n : Nat}
    {i : Instrument} {r : InstrumentRecord} (hi : l.project.instruments[n]? = some i)
    (hr : l.records[n]? = some (some r)) : l.instrumentItems record n = itemsOf (record i r) := by
  rw [instrumentItems, hi, hr]

/-- A word of a table entry leads to the entry. -/
theorem Assembled.leadsTo (h : l.Assembled tables image) (hmarks : l.StreamsMarkLoops)
    {label : Nat → Label} {table : UniqueTable} (ht : l.HasEntries label table) {n : Nat}
    {bytes : List UInt8} (hn : table.get? n = some bytes) {start : Nat} {rest : List Item}
    (hreads : Player.Reads (image.memory l.dataBase) start
      (Image.bytesOf image.address (.word (l.labelWord (label n)) :: rest))) :
    Player.LeadsTo (image.memory l.dataBase) start bytes ∧
      Player.Reads (image.memory l.dataBase) (start + 2) (Image.bytesOf image.address rest) := by
  obtain ⟨address, haddress, hbytes⟩ := h.entry_address hmarks ht hn
  rw [Image.bytesOf_cons, Player.reads_append, Item.length_bytes] at hreads
  refine ⟨⟨address, Image.readWord_address haddress ?_, hbytes⟩, hreads.2⟩
  rw [Image.bytesOf_cons, Image.bytesOf_nil, List.append_nil]
  exact hreads.1

theorem reads_bytes {mem : Player.Memory} {start : Nat} {bytes : List UInt8}
    (h : Player.Reads mem start (Image.bytesOf image.address (bytes.map .byte))) :
    Player.Reads mem start bytes := by
  rwa [bytesOf_bytes] at h

variable {i : Instrument} {r : InstrumentRecord}

/-- **A record leads to the curves and waves of its instrument.** -/
theorem Assembled.isRecord (h : l.Assembled tables image) (hmarks : l.StreamsMarkLoops)
    (hr : r.Describes i l.kernel l.tables l.waves) {start : Nat}
    (hreads : Player.Reads (image.memory l.dataBase) start
      (Image.bytesOf image.address (itemsOf (l.recordOf i.kind.table i r)))) :
    i.IsRecord l.kernel (image.memory l.dataBase) start := by
  -- the words of the curves come first in all records
  have hcurves : ∀ rest, itemsOf (l.recordOf i.kind.table i r) =
      (l.curveWords r.curves).map .word ++ rest →
      (Player.Reads (image.memory l.dataBase) (start + 6) (Image.bytesOf image.address rest) →
        i.HasSettings l.kernel (image.memory l.dataBase) (start + 6)) →
      i.IsRecord l.kernel (image.memory l.dataBase) start := by
    intro rest hitems hrest
    rw [hitems] at hreads
    obtain ⟨hvolume, hreads⟩ := h.leadsTo hmarks hasEntries_curves hr.volume hreads
    obtain ⟨harpeggio, hreads⟩ := h.leadsTo hmarks hasEntries_curves hr.arpeggio hreads
    obtain ⟨hpitch, hreads⟩ := h.leadsTo hmarks hasEntries_curves hr.pitch hreads
    exact ⟨hvolume, harpeggio, hpitch, hrest hreads⟩
  obtain ⟨-, -, -, hduty, hinit, hwaves⟩ := hr
  obtain ⟨name, kind, envelopes⟩ := i
  obtain ⟨curves, waves⟩ := r
  cases kind with
  | apu | mmc5 =>
    refine hcurves _ (items_primaryRecord _ _) fun hreads => ?_
    obtain ⟨hleads, hreads⟩ := h.leadsTo hmarks hasEntries_curves hduty hreads
    exact ⟨hleads, hinit ▸ reads_bytes hreads⟩
  | vrc6 | s5b =>
    refine hcurves _ (items_extendedRecord _ _) fun hreads => ?_
    obtain ⟨hleads, hreads⟩ := h.leadsTo hmarks hasEntries_curves hduty hreads
    exact ⟨hleads, hinit ▸ reads_bytes hreads⟩
  | vrc7 patch regs =>
    refine hcurves _ (items_extendedRecord _ _) fun hreads => ?_
    obtain rfl : waves = .none := hwaves
    exact reads_bytes hreads
  | fds modSpeed modDepth modDelay =>
    refine hcurves _ (items_extendedRecord _ _) fun hreads => ?_
    obtain ⟨wave, modulation, rfl, hwave, hmod⟩ := hwaves
    obtain ⟨hleads, hreads⟩ := h.leadsTo hmarks hasEntries_fdsWaves hwave hreads
    obtain ⟨hmodLeads, hreads⟩ := h.leadsTo hmarks hasEntries_fdsMods hmod hreads
    exact ⟨hleads, hmodLeads, hreads⟩
  | n163 wavePos waveSize =>
    refine hcurves _ (items_extendedRecord _ _) fun hreads => ?_
    obtain ⟨wave, rfl, hwave⟩ := hwaves
    obtain ⟨hleads, hreads⟩ := h.leadsTo hmarks hasEntries_n163Waves hwave hreads
    exact ⟨hleads, reads_bytes hreads⟩

end Layout

namespace Compile

variable {o : Options} {p : Project}

/-- Where the slots and records of a compile come from. -/
theorem generate_instruments {g : Generated} (h : generate o p = .ok g) :
    ∃ log log' t, Slots.assign p o.kernel log = (g.slots, log') ∧
      addInstruments o.kernel g.slots 0 p.instruments { log := log' } {} =
        .ok (g.records, t, g.waves) ∧ t.Extends g.tables := by
  obtain ⟨r, selected, songs, tables, hprepare, -, hsongs, rfl⟩ := generate_iff.1 h
  obtain ⟨-, -, log, log', t, hassign, hinstruments, harpeggios⟩ := prepare_ok hprepare
  exact ⟨log, log', t, hassign, hinstruments,
    (extends_addArpeggios harpeggios).trans (addSongs_ok hsongs).2.1⟩

/-- **Every slot that is given has a record** that describes its instrument. -/
theorem generate_describes {g : Generated} (h : generate o p = .ok g) :
    g.slots.Assigned ∧ ∀ n slot, g.slots.slot n = some slot → ∃ i r, p.instruments[n]? = some i ∧
      g.records[n]? = some (some r) ∧ r.Describes i o.kernel g.tables g.waves := by
  obtain ⟨log, log', t, hassign, hadd, hlater⟩ := generate_instruments h
  have hassigned := Slots.assigned_assign p o.kernel log
  have hlength := Slots.length_assign p o.kernel log
  rw [hassign] at hassigned hlength
  have hsound : ({ log := log' } : Tables).Sound :=
    (Tables.extends_logging {} fun _ => log').sound Tables.sound_default
  obtain ⟨-, -, hall⟩ := addInstruments_ok hsound hadd
  refine ⟨hassigned, fun n slot hslot => ?_⟩
  have hlt := Slots.lt_of_slot hslot
  rw [hlength] at hlt
  have hi : p.instruments[n]? = some p.instruments[n] := List.getElem?_eq_getElem hlt
  obtain ⟨record, hrecord, hsome, hdescribes⟩ := hall n _ hi
  rw [Nat.zero_add, hslot, Option.isSome_some] at hsome
  obtain ⟨r, rfl⟩ := Option.isSome_iff_exists.1 hsome
  exact ⟨_, r, hi, hrecord, (hdescribes r rfl).mono hlater (.refl _)⟩

/-- The slots of a compile are those of its project. -/
theorem generate_given {g : Generated} (h : generate o p = .ok g) :
    Slots.Given p o.kernel p.instruments.length g.slots := by
  obtain ⟨log, log', t, hassign, -, -⟩ := generate_instruments h
  have hgiven := Slots.assign_given p o.kernel log
  rwa [hassign] at hgiven

/-- What stands at a slot of a table are the items of the record of the instrument that the table
names there. -/
theorem record_items {g : Generated} {lines : List Line} {image : Image}
    (hg : generate o p = .ok g) (hlines : (packedLayout o p g).lines = .ok lines)
    (himage : Image.assemble lines o.dataBase = .ok image) {n slot : Nat} {i : Instrument}
    (hi : p.instruments[n]? = some i) (hn : (g.slots.table i.kind.table)[slot]? = some n) :
    ∃ tables base r, (packedLayout o p g).Assembled tables image ∧
      (packedLayout o p g).StreamsMarkLoops ∧
      image.address ((Layout.tableLabel i.kind.table).text o.labelStem) = some base ∧
      r.Describes i o.kernel g.tables g.waves ∧
      Player.Reads (image.memory o.dataBase) (base.toNat + Layout.recordSize i.kind.table * slot)
        (Image.bytesOf image.address
          (itemsOf ((packedLayout o p g).recordOf i.kind.table i r))) := by
  obtain ⟨-, arpeggios, t, -, hall⟩ := generate_ok hg
  obtain ⟨items, hassembled⟩ := Layout.assembled _ hlines himage
  have hmarks := streamsMarkLoops hall
  obtain ⟨hassigned, hrecords⟩ := generate_describes hg
  have hsize : ∀ m ∈ g.slots.table i.kind.table, (Image.bytesOf image.address
      ((packedLayout o p g).instrumentItems ((packedLayout o p g).recordOf i.kind.table)
        m)).length = Layout.recordSize i.kind.table := by
    intro m hm
    obtain ⟨slot, hslot⟩ := hassigned _ m hm
    obtain ⟨j, r, hj, hr, -⟩ := hrecords m slot hslot
    rw [Layout.instrumentItems_eq hj hr, Image.length_bytesOf, Layout.size_record]
  obtain ⟨base, hbase, hreads⟩ := hassembled.table_address hmarks i.kind.table
  rw [Image.bytesOf, List.flatMap_assoc] at hreads
  have hrecord := Player.reads_flatMap hsize hreads hn
  obtain ⟨given, hgiven⟩ := hassigned _ n (List.mem_of_getElem? hn)
  obtain ⟨j, r, hj, hr, hdescribes⟩ := hrecords n given hgiven
  obtain rfl := Option.some.inj (hi.symm.trans hj)
  rw [Layout.instrumentItems_eq hi hr] at hrecord
  exact ⟨items, base, r, hassembled, hmarks, hbase, hdescribes, hrecord⟩

/-- **A slot of a table leads to the record of the instrument that the table names there.** -/
theorem record_named {g : Generated} {lines : List Line} {image : Image}
    (hg : generate o p = .ok g) (hlines : (packedLayout o p g).lines = .ok lines)
    (himage : Image.assemble lines o.dataBase = .ok image) {n slot : Nat} {i : Instrument}
    (hi : p.instruments[n]? = some i) (hn : (g.slots.table i.kind.table)[slot]? = some n) :
    ∃ base, image.address ((Layout.tableLabel i.kind.table).text o.labelStem) = some base ∧
      i.IsRecord o.kernel (image.memory o.dataBase)
        (base.toNat + Layout.recordSize i.kind.table * slot) := by
  obtain ⟨tables, base, r, hassembled, hmarks, hbase, hdescribes, hreads⟩ :=
    record_items hg hlines himage hi hn
  exact ⟨base, hbase, hassembled.isRecord hmarks hdescribes hreads⟩

end Compile

end Chiptune
