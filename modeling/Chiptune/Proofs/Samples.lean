import Chiptune.Proofs.Rows
import Chiptune.Proofs.SampleSegment
import Chiptune.Proofs.TablePlaces

/-!
# Samples of a compile

A note of the sample channel is a number, the number leads to an entry of the sample table, and the
entry to bytes of the sample segment.

* `Stream.generate_sampleNote`: the byte of a sample note decodes to the number of its mapping.
* `checkSamples_ok`: what is checked before anything is laid out, so that addresses and lengths fit
  the registers.
* `Compile.compile_samples`: **every note plays the sample that it is mapped to**.
-/

set_option autoImplicit false

namespace Chiptune

/-! ## Registers -/

theorem checkSamplesFrom_ok {registerOffset : Nat} {log : Log} {samples : List (Sample × Nat)}
    (h : (checkSamplesFrom registerOffset log samples).1 = .ok ()) :
    ∀ x ∈ samples, (registerOffset + x.2) / sampleAlignment ≤ 0xFF := by
  induction samples generalizing log with
  | nil => simp
  | cons x rest ih =>
    obtain ⟨sample, offset⟩ := x
    rw [checkSamplesFrom] at h
    split at h
    · cases h
    · rename_i hfits
      exact List.forall_mem_cons.2 ⟨Nat.le_of_not_lt hfits, ih h⟩

/-- **What is known of the address of a sample** once the samples are checked: it lies behind the
base of the address register, the segment is aligned, and the address fits the register. -/
theorem checkSamples_ok {p : Project} {base : UInt16} {log : Log}
    (h : (checkSamples p base log).1 = .ok ()) {k start : Nat} {s : Sample}
    (hs : p.samples[k]? = some s) (hk : (sampleOffsets p)[k]? = some start) :
    sampleRegisterBase ≤ base ∧ base.toNat % sampleAlignment = 0 ∧
      ((base - sampleRegisterBase).toNat + start) / sampleAlignment ≤ 0xFF := by
  unfold checkSamples at h
  split at h
  · rename_i hempty
    rw [List.isEmpty_iff.1 hempty] at hs
    cases hs
  split at h
  · cases h
  rename_i hbase
  simp only [not_or, Classical.not_not, UInt16.not_lt] at hbase
  have hmem : (s, start) ∈ p.samples.zip (sampleOffsets p) :=
    List.mem_of_getElem? (List.getElem?_zip_eq_some.2 ⟨hs, hk⟩)
  exact ⟨hbase.1, hbase.2, checkSamplesFrom_ok h _ hmem⟩

/-- A sample takes a number of units of 16 bytes, and one byte more; the length register holds the
number. -/
theorem length_paddedSample (data : List UInt8) :
    ∃ n ≤ 0xFF, (paddedSample data).length = 16 * n + 1 ∧
      min data.length maxSampleLength ≤ 16 * n + 1 := by
  refine ⟨(min maxSampleLength data.length - 1 + 15) / 16, ?_, ?_, ?_⟩ <;>
    simp only [paddedSample, paddedLength, maxSampleLength, List.length_append,
      List.length_replicate, List.length_take] <;>
    omega

/-- The data of a sample, cut to the longest length, and padding behind it. -/
theorem paddedSample_eq (data : List UInt8) :
    paddedSample data = data.take maxSampleLength ++ List.replicate
      ((paddedSample data).length - min data.length maxSampleLength) samplePadding := by
  have hlen : (paddedSample data).length = min maxSampleLength data.length +
      (paddedLength (data.take maxSampleLength).length - (data.take maxSampleLength).length) := by
    rw [paddedSample, List.length_append, List.length_replicate, List.length_take]
  rw [hlen, Nat.min_comm data.length, Nat.add_sub_cancel_left]
  rfl

/-! ## Notes of the sample channel -/

namespace Stream

variable {job : Job}

/-- The instruction that plays a row, and what is played before it. -/
theorem exists_played {channel : Channel} {is : List Instruction} {r : Nat} {p : Played}
    (h : (is.flatMap (·.played channel))[r]? = some p) :
    ∃ before i after q, is = before ++ i :: after ∧
      (before.flatMap (·.played channel)).length + q = r ∧ (i.played channel)[q]? = some p := by
  induction is generalizing r with
  | nil => cases h
  | cons i rest ih =>
    rw [List.flatMap_cons] at h
    by_cases hr : r < (i.played channel).length
    · rw [List.getElem?_append_left hr] at h
      exact ⟨[], i, rest, r, rfl, Nat.zero_add r, h⟩
    · rw [List.getElem?_append_right (Nat.le_of_not_lt hr)] at h
      obtain ⟨before, j, after, q, rfl, hq, hj⟩ := ih h
      refine ⟨i :: before, j, after, q, rfl, ?_, hj⟩
      rw [List.flatMap_cons, List.length_append]
      omega

/-- A sample is played by a one-byte note, and first of what that plays. -/
theorem played_sample {i : Instruction} {q slot : Nat}
    (h : (i.played .dpcm)[q]? = some (.sample slot)) :
    ∃ value e, i = .note value e ∧ q = 0 ∧ value ≠ 0 ∧ (value - noteBias).toNat = slot := by
  have hmem := List.mem_of_getElem? h
  cases i with
  | note value e =>
    refine ⟨value, e, rfl, ?_⟩
    cases q with
    | zero =>
      simp only [Instruction.played, List.getElem?_cons_zero, Option.some.injEq,
        Instruction.struck] at h
      split at h
      · cases h
      · rename_i hz
        cases h
        exact ⟨rfl, hz, rfl⟩
    | succ q => cases e <;> cases q <;> simp [Instruction.played] at h
  | emptyRows count => simp [Instruction.played] at hmem
  | op o bytes addresses =>
    unfold Instruction.played at hmem
    split at hmem <;> simp_all
  | _ => cases hmem

theorem encodeAll_append_ok {k : Kernel} {is js : List Instruction} {ts : List Token}
    (h : Instruction.encodeAll k (is ++ js) = .ok ts) :
    ∃ front back, Instruction.encodeAll k is = .ok front ∧ Instruction.encodeAll k js = .ok back ∧
      ts = front ++ back := by
  induction is generalizing ts with
  | nil => exact ⟨[], ts, rfl, h, rfl⟩
  | cons i is ih =>
    obtain ⟨first, others, hfirst, hothers, rfl⟩ := encodeAll_cons_ok h
    obtain ⟨front, back, hfront, hback, rfl⟩ := ih hothers
    refine ⟨first ++ front, back, ?_, hback, by rw [List.append_assoc]⟩
    rw [Instruction.encodeAll, hfirst]
    simp only [bind, Except.bind, hfront]

/-- A note that is not a stop is a byte that decodes to it. -/
theorem encode_note {k : Kernel} {value : UInt8} {e : Bool} {ts : List Token} (hz : value ≠ 0)
    (h : (Instruction.note value e).encode k = .ok ts) :
    ∃ byte, ts = [.note byte] ∧ k.decode byte = .note value e := by
  simp only [Instruction.encode, if_neg hz] at h
  split at h
  · cases h
  rename_i hpack
  split at h
  · rename_i byte hbyte
    cases h
    refine ⟨_, rfl, ?_⟩
    cases e with
    | false => simpa using Kernel.decode_noteByte hbyte
    | true => exact Kernel.decode_packedNote (by simpa using hpack) hbyte
  · cases h

/-- **The byte of a sample note is the number of its mapping**, counted from 1 above the bias. -/
theorem generate_sampleNote {t t' : Tables} {tokens : List Token}
    (h : generate job t = (.ok tokens, t')) (hc : job.channel = .dpcm) :
    ∃ rows, job.song.rows (job.song.track .dpcm) = .ok rows ∧ ∀ (r : Nat) (row : Row) (v : UInt8)
      (m : Nat), rows[r]? = some row → row.note.bind (·.value) = some (.pitch v) →
      job.project.mappings.findIdx? (·.note == v) = some m → m < 63 →
      ∃ before byte after value e, tokens = before ++ .note byte :: after ∧
        ((disassemble job.kernel before).flatMap (·.played .dpcm)).length = r ∧
        job.kernel.decode byte = .note value e ∧ value.toNat = m + 1 + noteBias.toNat := by
  obtain ⟨rows, speeds, loopAt, pieces, w, hrows, -, -, hruns, htokens, -⟩ := generate_ok h
  rw [hc] at hrows
  refine ⟨rows, hrows, fun r row v m hrow hvalue hm hlt => ?_⟩
  have hoperands := hruns.hasOperands rfl w
  generalize his : join job.kernel {} pieces ++ [lastInstruction job loopAt w] = is
    at htokens hoperands
  have hplayed : is.flatMap (·.played .dpcm) = rows.map (rowPlays job) := by
    have hlast : (lastInstruction job loopAt w).played .dpcm = [] := by
      unfold lastInstruction
      split <;> rfl
    rw [← his, List.flatMap_append, ← Driver.map_trace {}, trace_join]
    have hall := hruns.played rfl {}
    rw [hc] at hall
    simp [Pending.trace, hlast, hall]
  have hsample : (is.flatMap (·.played .dpcm))[r]? = some (.sample (m + 1)) := by
    rw [hplayed, List.getElem?_map, hrow, Option.map_some, rowPlays, hvalue]
    simp only [hc, if_true, hm, if_pos hlt]
  obtain ⟨before, i, after, q, rfl, hq, hi⟩ := exists_played hsample
  obtain ⟨value, e, rfl, rfl, hz, hslot⟩ := played_sample hi
  obtain ⟨front, rest, hfront, hrest, rfl⟩ := encodeAll_append_ok htokens
  obtain ⟨first, back, hfirst, -, rfl⟩ := encodeAll_cons_ok hrest
  obtain ⟨byte, rfl, hdecode⟩ := encode_note hz hfirst
  refine ⟨front, byte, back, value, e, rfl, ?_, hdecode, ?_⟩
  · rw [disassemble_encodeAll (fun j hj => hoperands j (List.mem_append_left _ hj)) hfront]
    exact hq
  · have hsum : value = (value - noteBias) + noteBias := by rw [UInt8.sub_add_cancel]
    have hbias : noteBias.toNat = 12 := rfl
    rw [hsum, UInt8.toNat_add, hslot, hbias]
    omega

end Stream

/-! ## Entries of the sample table -/

namespace Layout

variable {l : Layout}

/-- The bytes of the entry of a mapping. -/
theorem bytesOf_mappingItems {m : SampleMapping} {s : Sample} {offset : Nat}
    (address : String → Option UInt16) (hs : l.project.samples[m.sample]? = some s)
    (ho : (sampleOffsets l.project)[m.sample]? = some offset) :
    Image.bytesOf address (l.mappingItems m) =
      sampleEntry (l.sampleBase - sampleRegisterBase).toNat offset m s := by
  rw [mappingItems, hs, ho, bytesOf_bytes]

end Layout

theorem exists_sampleOffset {p : Project} {k : Nat} {s : Sample} (hs : p.samples[k]? = some s) :
    ∃ offset, (sampleOffsets p)[k]? = some offset := by
  have hlt := (List.getElem?_eq_some_iff.1 hs).1
  rw [← length_sampleOffsetsFrom 0 p.samples] at hlt
  exact ⟨_, List.getElem?_eq_getElem hlt⟩

namespace Compile

variable {o : Options} {p : Project}

/-- What an image holds for a mapping of a number and for its sample: an entry of the table, and
what the entry stands for. -/
structure HoldsSample (o : Options) (p : Project) (image : Image) (number : Nat) (m : SampleMapping)
    (s : Sample) (table start : UInt16) (address length : UInt8) : Prop where
  found : image.address (Label.sampleTable.text o.labelStem) = some table
  entry : Player.Reads (image.memory o.dataBase) (table.toNat + 4 * number)
    [(m.pitch &&& 0x0F) ||| (if m.looping then 0x40 else 0), address, length, 0]
  labelled : image.address ((Label.sample m.sample).text o.labelStem) = some start
  /-- The address register counts units of 64 bytes. -/
  located : start.toNat = 0xC000 + 64 * address.toNat
  inSegment : o.sampleBase ≤ start
  /-- The length register counts units of 16 bytes, and the sample is one byte longer. -/
  bytes : (image.samples.drop (start.toNat - o.sampleBase.toNat)).take (16 * length.toNat + 1) =
    s.data.take 4081 ++ List.replicate (16 * length.toNat + 1 - min s.data.length 4081) 0x55
  whole : min s.data.length 4081 ≤ 16 * length.toNat + 1
  /-- Neither register is cut. -/
  uncut : ∃ offset, (sampleOffsets p)[m.sample]? = some offset ∧
    address.toNat = ((o.sampleBase - sampleRegisterBase).toNat + offset) / 64 ∧
    length.toNat = ((paddedSample s.data).length - 1) / 16

/-- What is checked before anything is generated. -/
theorem generate_checked {g : Generated} (h : generate o p = .ok g) :
    checkMappings p = .ok () ∧ (checkSamples p o.sampleBase {}).1 = .ok () := by
  obtain ⟨r, -, -, -, hprepare, -⟩ := generate_iff.1 h
  obtain ⟨hmappings, hsamples, -⟩ := prepare_ok hprepare
  exact ⟨hmappings, hsamples⟩

theorem exists_sample (h : checkMappings p = .ok ()) {m : SampleMapping} (hm : m ∈ p.mappings) :
    ∃ s, p.samples[m.sample]? = some s := by
  unfold checkMappings at h
  split at h
  · cases h
  rename_i hnone
  have hlt := List.find?_eq_none.1 hnone m hm
  exact ⟨_, List.getElem?_eq_getElem (Nat.lt_of_not_le (by simpa using hlt))⟩

/-- **Every mapping that a note can name leads to its sample.** -/
theorem holdsSample {g : Generated} {lines : List Line} {image : Image}
    (hg : generate o p = .ok g) (hlines : (packedLayout o p g).lines = .ok lines)
    (himage : Image.assemble lines o.dataBase = .ok image) {number : Nat} {m : SampleMapping}
    (hm : p.mappings[number]? = some m) (hlt : number < 63) :
    ∃ s table start address length, p.samples[m.sample]? = some s ∧
      HoldsSample o p image number m s table start address length := by
  obtain ⟨hmappings, hsamples⟩ := generate_checked hg
  obtain ⟨s, hs⟩ := exists_sample hmappings (List.mem_of_getElem? hm)
  obtain ⟨offset, hoffset⟩ := exists_sampleOffset hs
  obtain ⟨hbase, haligned, hfits⟩ := checkSamples_ok hsamples hs hoffset
  obtain ⟨-, arpeggios, t, -, hall⟩ := generate_ok hg
  obtain ⟨items, hassembled⟩ := Layout.assembled _ hlines himage
  obtain ⟨table, htable, hreads⟩ := hassembled.mappings_address (streamsMarkLoops hall)
  obtain ⟨⟨start, hstart, hat⟩, front, back, hbytes, hlen⟩ :=
    Layout.samples_ok hlines himage haligned hs hoffset
  obtain ⟨n, hn, hpadded, hwhole⟩ := length_paddedSample s.data
  -- every entry of the table takes four bytes
  have hsize : ∀ m ∈ p.mappings.take noteWindow.toNat,
      (Image.bytesOf image.address ((packedLayout o p g).mappingItems m)).length = 4 := by
    intro m hm
    obtain ⟨s, hs⟩ := exists_sample hmappings (List.mem_of_mem_take hm)
    obtain ⟨offset, hoffset⟩ := exists_sampleOffset hs
    rw [Layout.bytesOf_mappingItems image.address hs hoffset]
    rfl
  have htake : (p.mappings.take noteWindow.toNat)[number]? = some m := by
    rw [List.getElem?_take_of_lt (show number < noteWindow.toNat from hlt), hm]
  rw [Image.bytesOf, List.flatMap_assoc] at hreads
  have hentry : Player.Reads (image.memory o.dataBase) (table.toNat + 4 * number)
      (Layout.sampleEntry (o.sampleBase - sampleRegisterBase).toNat offset m s) := by
    have hreads := Player.reads_flatMap hsize hreads htake
    rwa [Layout.bytesOf_mappingItems image.address hs hoffset] at hreads
  have hregister : (o.sampleBase - sampleRegisterBase).toNat =
      o.sampleBase.toNat - sampleRegisterBase.toNat := UInt16.toNat_sub_of_le _ _ hbase
  have hle : sampleRegisterBase.toNat ≤ o.sampleBase.toNat := UInt16.le_iff_toNat_le.1 hbase
  have hmod := sampleOffsetsFrom_mod (List.mem_of_getElem? hoffset)
  have hunit : sampleRegisterBase.toNat = 0xC000 := rfl
  rw [sampleAlignment] at haligned hfits hmod
  have hat : start.toNat = o.sampleBase.toNat + offset := hat
  have haddress : (UInt8.ofNat (((o.sampleBase - sampleRegisterBase).toNat + offset) /
      sampleAlignment)).toNat = ((o.sampleBase - sampleRegisterBase).toNat + offset) / 64 :=
    UInt8.toNat_ofNat_of_lt' (Nat.lt_succ_of_le hfits)
  have hlength : (UInt8.ofNat (((paddedSample s.data).length - 1) / 16)).toNat = n := by
    rw [hpadded, Nat.add_sub_cancel, Nat.mul_div_cancel_left n (by decide)]
    exact UInt8.toNat_ofNat_of_lt' (Nat.lt_succ_of_le hn)
  refine ⟨s, table, start, _, _, hs, htable, hentry, hstart, ?_, ?_, ?_, ?_, offset, hoffset,
    haddress, ?_⟩
  · rw [haddress, hat, hregister]
    omega
  · rw [UInt16.le_iff_toNat_le]
    omega
  · rw [hlength, ← hpadded, hbytes, hat, Nat.add_sub_cancel_left, ← hlen, List.drop_left,
      List.take_left]
    exact paddedSample_eq s.data
  · rw [hlength]
    exact hwhole
  · rw [hlength, hpadded]
    omega

/-- **Every note of the sample channel plays the sample that it is mapped to.** For a note whose
first mapping has a number that a note byte can hold, the byte that a stream has for it decodes to
this number, the entry of this number in the sample table names an address and a length, and the
sample segment holds the sample there. -/
theorem compile_samples {score : Score} (h : compile o p = .ok score) :
    ∃ g selected, generate o p = .ok g ∧ selectedSongs o p = .ok selected ∧
      ∀ (v : UInt8) (number : Nat), p.mappings.findIdx? (·.note == v) = some number →
        number < 63 → ∃ m s table start address length, p.mappings[number]? = some m ∧
          p.samples[m.sample]? = some s ∧
          HoldsSample o p score.image number m s table start address length ∧
          ∀ (i index j : Nat), selected[i]? = some index → p.channels[j]? = some .dpcm →
            ∃ song stream source rows, g.songs[i]? = some song ∧
              song.streams[j]? = some stream ∧ p.songs[index]? = some source ∧
              source.rows (source.track .dpcm) = .ok rows ∧
              Plays o g.tables score.image i j stream.tokens ∧
              ∀ (r : Nat) (row : Row), rows[r]? = some row →
                row.note.bind (·.value) = some (.pitch v) →
                ∃ before byte after value e, stream.tokens = before ++ .note byte :: after ∧
                  ((disassemble o.kernel before).flatMap (·.played .dpcm)).length = r ∧
                  o.kernel.decode byte = .note value e ∧
                  value.toNat = number + 1 + noteBias.toNat := by
  obtain ⟨g, lines, hg, hlines, himage⟩ := compile_ok h
  obtain ⟨hselected, arpeggios, t, -, hall⟩ := generate_ok hg
  refine ⟨g, _, hg, hselected, fun v number hnumber hlt => ?_⟩
  obtain ⟨m, hm⟩ : ∃ m, p.mappings[number]? = some m :=
    ⟨_, List.getElem?_eq_getElem (List.findIdx?_eq_some_iff_getElem.1 hnumber).1⟩
  obtain ⟨s, table, start, address, length, hs, hholds⟩ := holdsSample hg hlines himage hm hlt
  refine ⟨m, s, table, start, address, length, hm, hs, hholds, fun i index j hi hj => ?_⟩
  rw [List.getElem?_map] at hi
  obtain ⟨song, hsong, rfl⟩ := Option.map_eq_some_iff.1 hi
  have hfrom := hall song (List.mem_of_getElem? hsong)
  rw [← hfrom.channels, List.getElem?_map] at hj
  obtain ⟨stream, hstream, hchannel⟩ := Option.map_eq_some_iff.1 hj
  obtain ⟨source, patches, -, -, hsource, -, hgenerates⟩ := hfrom.streams
  obtain ⟨u, u', hgenerate, -, -⟩ := hgenerates stream (List.mem_of_getElem? hstream)
  obtain ⟨rows, hrows, hnotes⟩ := Stream.generate_sampleNote hgenerate hchannel
  exact ⟨song, stream, source, rows, hsong, hstream, hsource, hrows,
    plays_song hg hlines himage hsong hstream,
    fun r row hrow hvalue => hnotes r row v number hrow hvalue hnumber hlt⟩

/-- A tune with one note on the sample channel, which plays the second of two samples. -/
def drumTune : Project :=
  { name := "drums"
    samples := [{ name := "kick", data := [1, 2, 3] }, { name := "snare", data := [4, 5] }]
    mappings := [{ note := 30, sample := 0 }, { note := 40, sample := 1, pitch := 15 }]
    songs := [
      { name := "one", length := 1, patternLength := 1, loopPoint := some 0
        tracks := [{
          channel := .dpcm
          patterns := [{ notes := [{ row := 0, value := some (.pitch 40) }] }]
          order := [some 0] }] }] }

theorem generate_drumTune : ∃ g, generate {} drumTune = .ok g ∧
    assembles (packedLayout {} drumTune g) = true :=
  exists_generated rfl (by decide +kernel)

/-- Entry 1 of the table leads to the second sample, one unit behind the first, and the note of the
tune is a byte of this number. -/
theorem compile_samples_drumTune : ∃ score g table start stream, compile {} drumTune = .ok score ∧
    HoldsSample {} drumTune score.image 1 { note := 40, sample := 1, pitch := 15 }
      { name := "snare", data := [4, 5] } table start 1 1 ∧
    Plays {} g score.image 0 4 stream ∧
    ∃ before byte after e, stream = before ++ .note byte :: after ∧
      Kernel.extended.decode byte = .note 14 e := by
  obtain ⟨g, hg, hassembles⟩ := generate_drumTune
  obtain ⟨score, hscore⟩ := compile_succeeds hg hassembles
  obtain ⟨g', selected, hg', hselected, hall⟩ := compile_samples hscore
  obtain rfl : [0] = selected := Except.ok.inj hselected
  obtain ⟨m, s, table, start, address, length, hm, hs, hholds, hstreams⟩ :=
    hall 40 1 (by decide) (by decide)
  obtain rfl := Option.some.inj hm
  obtain rfl := Option.some.inj hs
  obtain ⟨offset, hoffset, haddress, hlength⟩ := hholds.uncut
  obtain rfl : 64 = offset := Option.some.inj hoffset
  obtain rfl : address = 1 := UInt8.toNat_inj.1 haddress
  obtain rfl : length = 1 := UInt8.toNat_inj.1 hlength
  obtain ⟨song, stream, source, rows, -, -, hsource, hrows, hplays, hnotes⟩ :=
    hstreams 0 0 4 rfl (by decide)
  obtain rfl := Option.some.inj hsource
  obtain rfl := Except.ok.inj hrows
  obtain ⟨before, byte, after, value, e, htokens, -, hdecode, hvalue⟩ := hnotes 0 _ rfl (by decide)
  obtain rfl : value = 14 := UInt8.toNat_inj.1 hvalue
  exact ⟨score, g'.tables, table, start, stream.tokens, hscore, hholds, hplays, before, byte, after,
    e, htokens, hdecode⟩

end Compile

end Chiptune
