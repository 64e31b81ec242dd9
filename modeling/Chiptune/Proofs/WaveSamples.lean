import Chiptune.Proofs.PlayedInstruments

/-!
# Samples of the N163 waves

An N163 wave has two samples of four bits in each byte, low half first (`Waveform.nibbles`). The
record of an instrument announces a number of samples and points at an entry of the wave table. The
entry is packed with an even number of samples, the record announces the number of the instrument.

* `Instrument.n163Wave_samples`: a wave holds the samples of its envelope, as many as it has halves.
* `Compile.compile_waves`: **the wave of a record holds the samples that are announced if and only
  if their number is even or 1**, and of another number all but the last.
-/

set_option autoImplicit false

namespace Chiptune

namespace Waveform

/-- A four-bit sample of a cyclic waveform; an empty one is flat. -/
def sampleAt (e : Envelope) (k : Nat) : UInt8 :=
  match e.values[k % e.values.length]? with
  | some value => clampSample 15 value.toInt
  | none => 0

/-- Sample of a number in the bytes of a wave, low half first. -/
def nibble? (bytes : List UInt8) (k : Nat) : Option UInt8 :=
  bytes[k / 2]?.map fun b => if k % 2 = 0 then b &&& 0x0F else b >>> 4

/-- A wave holds the first samples of an envelope. -/
def Holds (wave : List UInt8) (e : Envelope) (count : Nat) : Prop :=
  ∀ k < count, nibble? wave k = some (sampleAt e k)

/-! ## Packing -/

theorem nibble?_add_two (b : UInt8) (bytes : List UInt8) (k : Nat) :
    nibble? (b :: bytes) (k + 2) = nibble? bytes k := by
  rw [nibble?, Nat.add_div_right k (by decide), Nat.add_mod_right, List.getElem?_cons_succ, nibble?]

theorem nibble?_eq_none {bytes : List UInt8} {k : Nat} :
    nibble? bytes k = none ↔ 2 * bytes.length ≤ k := by
  rw [nibble?, Option.map_eq_none_iff, List.getElem?_eq_none_iff]
  omega

/-- The halves of a byte that was packed. -/
theorem halves_pack {low high : UInt8} (hlow : low ≤ 15) (hhigh : high ≤ 15) :
    (high <<< 4 ||| low) &&& 0x0F = low ∧ (high <<< 4 ||| low) >>> 4 = high := by
  have hall : ∀ a b : Fin 16, (UInt8.ofNat b <<< 4 ||| UInt8.ofNat a) &&& 0x0F = UInt8.ofNat a ∧
      (UInt8.ofNat b <<< 4 ||| UInt8.ofNat a) >>> 4 = UInt8.ofNat b := by
    decide +kernel
  have hlow : low.toNat < 16 := Nat.lt_succ_of_le (UInt8.le_iff_toNat_le.1 hlow)
  have hhigh : high.toNat < 16 := Nat.lt_succ_of_le (UInt8.le_iff_toNat_le.1 hhigh)
  simpa using hall ⟨low.toNat, hlow⟩ ⟨high.toNat, hhigh⟩

theorem length_nibbles : ∀ xs : List UInt8, (nibbles xs).length = xs.length / 2
  | [] | [_] => by simp [nibbles]
  | low :: high :: rest => by
    rw [nibbles, List.length_cons, length_nibbles rest, List.length_cons, List.length_cons]
    omega

/-- **Packed samples are found again**, all that have a byte. -/
theorem nibble?_nibbles : ∀ {xs : List UInt8} {k : Nat}, (∀ x ∈ xs, x ≤ 15) →
    k < 2 * (xs.length / 2) → nibble? (nibbles xs) k = xs[k]?
  | [], k, _, hk | [_], k, _, hk => by simp at hk
  | low :: high :: rest, k, hxs, hk => by
    obtain ⟨hfirst, hsecond⟩ := halves_pack (hxs low (by simp)) (hxs high (by simp))
    match k with
    | 0 => simp [nibbles, nibble?, hfirst]
    | 1 => simp [nibbles, nibble?, hsecond]
    | k + 2 =>
      simp only [List.length_cons] at hk
      rw [nibbles, nibble?_add_two, nibble?_nibbles (fun x hx => hxs x (by simp [hx])) (by omega),
        List.getElem?_cons_succ, List.getElem?_cons_succ]

/-! ## Samples -/

theorem clampSample_le (value : Int) : clampSample 15 value ≤ 15 := by
  have hle : (max 0 (min 15 value)).toNat ≤ 15 := by omega
  rw [clampSample, UInt8.le_iff_toNat_le, UInt8.toNat_ofNat']
  exact Nat.le_trans (Nat.mod_le _ _) hle

/-- The samples of a waveform, clamped. -/
theorem getElem?_samples (e : Envelope) {count k : Nat} (hk : k < count) :
    ((samples e count).map (clampSample 15))[k]? = some (sampleAt e k) := by
  rw [samples, List.map_map, List.getElem?_map, List.getElem?_range hk, Option.map_some,
    Function.comp_apply, sampleAt, Array.getD_eq_getD_getElem?, List.size_toArray,
    List.getElem?_toArray]
  cases e.values[k % e.values.length]? <;> rfl

theorem length_samples (e : Envelope) (count : Nat) : (samples e count).length = count := by
  rw [samples, List.length_map, List.length_range]

end Waveform

namespace Instrument

open Waveform

variable (i : Instrument) (size : UInt8)

/-- Samples that a wave of a size is packed with. -/
theorem length_n163Wave : 2 * (i.n163Wave size).length = max 2 size.toNat / 2 * 2 := by
  rw [n163Wave, Waveform.n163Wave, length_nibbles, List.length_map, length_samples]
  omega

/-- **A wave holds the samples of its envelope**, as many as it has halves. -/
theorem n163Wave_samples :
    Holds (i.n163Wave size) (i.waveform .n163Waveform) (2 * (i.n163Wave size).length) := by
  intro k hk
  rw [length_n163Wave] at hk
  rw [n163Wave, Waveform.n163Wave, nibble?_nibbles, getElem?_samples _ hk]
  · intro x hx
    obtain ⟨value, -, rfl⟩ := List.mem_map.1 hx
    exact clampSample_le value
  · rw [List.length_map, length_samples]
    omega

/-- It holds all samples of its size if this is even or 1. -/
theorem n163Wave_holds : Holds (i.n163Wave size) (i.waveform .n163Waveform) size.toNat ↔
    size.toNat % 2 = 0 ∨ size.toNat = 1 := by
  have hlength := i.length_n163Wave size
  constructor
  · intro hholds
    by_contra hodd
    -- the last sample of an odd number has no half
    have hlast := hholds (size.toNat - 1) (by omega)
    rw [nibble?_eq_none.2 (by omega)] at hlast
    cases hlast
  · intro hsize k hk
    exact i.n163Wave_samples size k (by omega)

end Instrument

namespace Compile

open Waveform

variable {o : Options} {p : Project}

/-- At a slot of the extended table is a record that announces a number of samples and points at an
entry of the N163 waves. -/
def PointsAtWave (o : Options) (g : Generated) (image : Image) (slot : Nat) (size : UInt8)
    (wave : List UInt8) : Prop :=
  ∃ base index address,
    image.address (Label.extendedInstruments.text o.labelStem) = some base ∧
    g.waves.n163Waves.get? index = some wave ∧
    image.address ((Label.n163Wave index).text o.labelStem) = some address ∧
    Player.readWord (image.memory o.dataBase)
      (base.toNat + Layout.extendedRecordSize * slot + 6) = some address ∧
    Player.Reads (image.memory o.dataBase) address.toNat wave ∧
    image.memory o.dataBase (base.toNat + Layout.extendedRecordSize * slot + 9) = some size

/-- The record of an N163 instrument points at the wave of the instrument. -/
theorem pointsAtWave {g : Generated} {lines : List Line} {image : Image}
    (hg : generate o p = .ok g) (hlines : (packedLayout o p g).lines = .ok lines)
    (himage : Image.assemble lines o.dataBase = .ok image) {n slot : Nat} {i : Instrument}
    {wavePos waveSize : UInt8} (hi : p.instruments[n]? = some i)
    (hkind : i.kind = .n163 wavePos waveSize)
    (hn : (g.slots.table .extended)[slot]? = some n) :
    PointsAtWave o g image slot waveSize (i.n163Wave waveSize) := by
  have htable : i.kind.table = .extended := by rw [hkind]; rfl
  obtain ⟨tables, base, r, hassembled, hmarks, hbase, hdescribes, hreads⟩ :=
    record_items hg hlines himage hi (htable ▸ hn)
  have hwaves := hdescribes.waves
  rw [InstrumentWaves.Describes, hkind] at hwaves
  obtain ⟨index, hindex, hentry⟩ := hwaves
  obtain ⟨address, haddress, hwave⟩ :=
    hassembled.entry_address hmarks Layout.hasEntries_n163Waves hentry
  have hitems : itemsOf ((packedLayout o p g).recordOf i.kind.table i r) =
      ((packedLayout o p g).curveWords r.curves).map .word ++
        .word ((packedLayout o p g).labelWord (.n163Wave index)) ::
          [wavePos, waveSize, 0, 0, 0, 0, 0, 0].map .byte := by
    rw [htable, Layout.recordOf, Layout.items_extendedRecord, Layout.extendedItems, hkind, hindex]
  rw [hitems, Image.bytesOf_append, Player.reads_append, Image.length_bytesOf] at hreads
  rw [htable] at hreads hbase
  obtain ⟨-, hreads⟩ := hreads
  rw [Image.bytesOf_cons, Player.reads_append, Item.length_bytes] at hreads
  obtain ⟨hword, hbytes⟩ := hreads
  have hbytes := Layout.reads_bytes hbytes
  refine ⟨base, index, address, hbase, hentry, haddress, ?_, hwave, hbytes.2.1⟩
  refine Image.readWord_address haddress ?_
  rw [Image.bytesOf_cons, Image.bytesOf_nil, List.append_nil]
  exact hword

/-- **What the record of an N163 instrument announces.** The record of an instrument that has a slot
of the table announces the wave size of the instrument. It points at a wave that is packed with this
number of samples rounded down to an even one, and at least 2; they are the samples of the
instrument's envelope. So the wave holds all that are announced if and only if the size is even or
1. -/
theorem compile_waves {score : Score} (h : compile o p = .ok score) :
    ∃ g, generate o p = .ok g ∧
      ∀ (n slot : Nat) (i : Instrument) (wavePos waveSize : UInt8), p.instruments[n]? = some i →
        i.kind = .n163 wavePos waveSize → (g.slots.table .extended)[slot]? = some n →
        ∃ wave, PointsAtWave o g score.image slot waveSize wave ∧
          2 * wave.length = max 2 waveSize.toNat / 2 * 2 ∧
          Holds wave (i.waveform .n163Waveform) (2 * wave.length) ∧
          (Holds wave (i.waveform .n163Waveform) waveSize.toNat ↔
            waveSize.toNat % 2 = 0 ∨ waveSize.toNat = 1) := by
  obtain ⟨g, lines, hg, hlines, himage⟩ := compile_ok h
  refine ⟨g, hg, fun n slot i wavePos waveSize hi hkind hn => ?_⟩
  exact ⟨_, pointsAtWave hg hlines himage hi hkind hn, i.length_n163Wave waveSize,
    i.n163Wave_samples waveSize, i.n163Wave_holds waveSize⟩

/-- A project with a wave of three samples. -/
def threeSamples : Project :=
  { name := "saw"
    expansions := { n163 := true }
    instruments := [
      { name := "saw", kind := .n163 0 3
        envelopes := { n163Waveform := some { values := [1, 2, 3] } } }]
    songs := [{ name := "one", length := 1, patternLength := 1, tracks := [] }] }

/-- Records of an instrument without curves whose wave has an index. -/
def waveRecords (wave : Nat) : List (Option InstrumentRecord) :=
  [some { curves := { volume := 0, arpeggio := 0, pitch := 0, duty := 0, dutyInit := 0 }
          waves := .n163 wave }]

/-- A table with one entry. -/
def singleTable (bytes : List UInt8) : UniqueTable :=
  ⟨#[bytes], ({} : Std.HashMap UInt32 (List Nat)).insert (UniqueTable.key bytes 0) [0]⟩

theorem intern_empty (bytes : List UInt8) :
    UniqueTable.empty.intern bytes 0 = (0, singleTable bytes) := by
  simp [UniqueTable.intern, UniqueTable.find?, UniqueTable.empty, singleTable]

theorem generate_threeSamples : ∃ g, generate uncompressed threeSamples = .ok g ∧
    assembles (packedLayout uncompressed threeSamples g) = true ∧
    g.slots.table .extended = [0] ∧ g.waves.n163Waves = singleTable [0x21] := by
  have hparts : (generate uncompressed threeSamples).toOption.map
      (fun g => (g.records, g.waves, g.tables.curves)) =
      some (waveRecords (UniqueTable.empty.intern [0x21] 0).1,
        { n163Waves := (UniqueTable.empty.intern [0x21] 0).2 },
        UniqueTable.withDefault Curve.default) := rfl
  rw [intern_empty, withDefault_eq] at hparts
  have hwritten : ∀ g, generate uncompressed threeSamples = .ok g →
      waveRecords 0 = g.records ∧ { n163Waves := singleTable [0x21] } = g.waves ∧
        ⟨#[Curve.default], defaultBuckets⟩ = g.tables.curves := by
    intro g hg
    rw [hg] at hparts
    obtain ⟨hrecords, hrest⟩ := Prod.mk.inj (Option.some.inj hparts)
    obtain ⟨hwaves, hcurves⟩ := Prod.mk.inj hrest
    exact ⟨hrecords.symm, hwaves.symm, hcurves.symm⟩
  obtain ⟨g, hg, htest⟩ := @exists_of_written uncompressed threeSamples
    (fun g => assembles (packedLayout uncompressed threeSamples g) &&
      g.slots.table .extended == [0])
    (fun g => { g with
      records := waveRecords 0
      waves := { n163Waves := singleTable [0x21] }
      tables := { g.tables with curves := ⟨#[Curve.default], defaultBuckets⟩ } })
    (fun g hg => by rw [(hwritten g hg).1, (hwritten g hg).2.1, (hwritten g hg).2.2])
    (by decide +kernel)
  obtain ⟨hassembles, hslots⟩ := Bool.and_eq_true_iff.1 htest
  exact ⟨g, hg, hassembles, beq_iff_eq.1 hslots, by rw [← (hwritten g hg).2.1]⟩

/-- Of the three samples that are announced for this project, the wave holds two. -/
theorem compile_waves_threeSamples : ∃ score g wave, compile uncompressed threeSamples = .ok score ∧
    generate uncompressed threeSamples = .ok g ∧ PointsAtWave uncompressed g score.image 0 3 wave ∧
    wave.length = 1 ∧ Holds wave { values := [1, 2, 3] } 2 := by
  obtain ⟨g, hg, hassembles, hslots, -⟩ := generate_threeSamples
  obtain ⟨score, hscore⟩ := compile_succeeds hg hassembles
  obtain ⟨g', hg', hall⟩ := compile_waves hscore
  obtain rfl := Except.ok.inj (hg.symm.trans hg')
  obtain ⟨wave, hpoints, hlength, hholds, -⟩ := hall 0 0 _ 0 3 rfl rfl (by rw [hslots]; rfl)
  have hlength : wave.length = 1 := Nat.eq_of_mul_eq_mul_left (by decide) hlength
  rw [hlength] at hholds
  exact ⟨score, g, wave, hscore, hg, hpoints, hlength, hholds⟩

/-- No wave that the record of this project points at holds the three samples that it announces. -/
theorem not_holds_threeSamples : ∃ score g, compile uncompressed threeSamples = .ok score ∧
    generate uncompressed threeSamples = .ok g ∧ (g.slots.table .extended)[0]? = some 0 ∧
    (∃ wave, PointsAtWave uncompressed g score.image 0 3 wave) ∧
    ∀ wave, PointsAtWave uncompressed g score.image 0 3 wave →
      ¬ Holds wave { values := [1, 2, 3] } 3 := by
  obtain ⟨g, hg, hassembles, hslots, hwaves⟩ := generate_threeSamples
  obtain ⟨score, hscore⟩ := compile_succeeds hg hassembles
  obtain ⟨g', lines, hg', hlines, himage⟩ := compile_ok hscore
  obtain rfl := Except.ok.inj (hg.symm.trans hg')
  have hfirst : (g.slots.table .extended)[0]? = some 0 := by rw [hslots]; rfl
  refine ⟨score, g, hscore, hg, hfirst, ⟨_, pointsAtWave hg hlines himage rfl rfl hfirst⟩, ?_⟩
  rintro wave ⟨base, index, address, -, hentry, -⟩ hholds
  -- the only entry of the table is one byte
  rw [hwaves, UniqueTable.get?, singleTable] at hentry
  obtain rfl : wave = [0x21] := by simpa using Array.mem_of_getElem? hentry
  cases hholds 2 (by decide)

end Compile

end Chiptune
