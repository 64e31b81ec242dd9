import Chiptune.Proofs.Placement
import Chiptune.SampleData

/-!
# The sample segment

Offsets of samples are found twice: `sampleOffsets` adds up lengths, and laying out the lines of the
segment fills up with zeros to the next multiple of the alignment. Both are the same if the segment
starts at a multiple of it, so a sample has the address that the sample table tells, and its bytes
are there (`Layout.samples_ok`).
-/

set_option autoImplicit false

namespace Chiptune

/-! ## Offsets -/

theorem alignSample_mod (offset : Nat) : alignSample offset % sampleAlignment = 0 := by
  rw [alignSample, Nat.mul_mod_left]

theorem le_alignSample (offset : Nat) : offset ≤ alignSample offset := by
  rw [alignSample, sampleAlignment]
  omega

/-- The fill behind an address is that behind the offset, from a base that is aligned. -/
theorem gap_eq {base : Nat} (hbase : base % sampleAlignment = 0) (offset : Nat) :
    (sampleAlignment - (base + offset) % sampleAlignment) % sampleAlignment =
      alignSample offset - offset := by
  rw [alignSample, sampleAlignment] at *
  omega

theorem length_sampleOffsetsFrom (offset : Nat) (samples : List Sample) :
    (sampleOffsetsFrom offset samples).length = samples.length := by
  induction samples generalizing offset with
  | nil => rfl
  | cons s rest ih => rw [sampleOffsetsFrom, List.length_cons, ih, List.length_cons]

/-- Every sample starts at a multiple of the alignment. -/
theorem sampleOffsetsFrom_mod {offset start : Nat} {samples : List Sample}
    (h : start ∈ sampleOffsetsFrom offset samples) : start % sampleAlignment = 0 := by
  induction samples generalizing offset with
  | nil => cases h
  | cons s rest ih =>
    rcases List.mem_cons.1 h with rfl | h
    · exact alignSample_mod offset
    · exact ih h

/-- Bytes of samples that are laid out from an offset on. -/
def sampleBytesFrom (offset : Nat) : List Sample → List UInt8
  | [] => []
  | s :: rest =>
    List.replicate (alignSample offset - offset) 0 ++ (paddedSample s.data ++
      sampleBytesFrom (alignSample offset + (paddedSample s.data).length) rest)

/-- **The bytes of a sample are at its offset.** -/
theorem sampleBytesFrom_split {offset k start : Nat} {samples : List Sample} {s : Sample}
    (hs : samples[k]? = some s) (hk : (sampleOffsetsFrom offset samples)[k]? = some start) :
    ∃ front back, sampleBytesFrom offset samples = front ++ (paddedSample s.data ++ back) ∧
      offset + front.length = start := by
  induction samples generalizing offset k with
  | nil => cases hs
  | cons first rest ih =>
    have hle := le_alignSample offset
    cases k with
    | zero =>
      cases hs
      cases hk
      refine ⟨List.replicate (alignSample offset - offset) 0, _, rfl, ?_⟩
      rw [List.length_replicate]
      omega
    | succ k =>
      obtain ⟨front, back, hbytes, hlen⟩ := ih hs hk
      refine ⟨List.replicate (alignSample offset - offset) 0 ++ (paddedSample first.data ++ front),
        back, ?_, ?_⟩
      · rw [sampleBytesFrom, hbytes]
        simp only [List.append_assoc]
      · simp only [List.length_append, List.length_replicate]
        omega

/-! ## Laying out the samples -/

namespace Image.Draft

variable {d d' : Draft} {base : UInt16} {bytes : List UInt8}

/-- Lines are added to the sample segment, which has a base and holds these bytes inside of the
address space. -/
structure InSamples (d : Draft) (base : UInt16) (bytes : List UInt8) : Prop where
  current : d.current = .samples
  samples : d.samples = some ⟨base, bytes.toArray⟩
  inside : base.toNat + bytes.length ≤ maxAddress + 1

theorem InSamples.block (h : d.InSamples base bytes) : d.block = ⟨base, bytes.toArray⟩ := by
  simp only [Draft.block, h.current, h.samples, Option.getD_some]

theorem InSamples.stop (h : d.InSamples base bytes) :
    d.block.stop = base.toNat + bytes.length := by
  rw [h.block, Block.stop, List.size_toArray]

theorem InSamples.toNat_address (h : d.InSamples base bytes) :
    d.block.address.toNat = base.toNat + bytes.length := by
  have hinside := h.inside
  rw [← h.stop] at hinside ⊢
  exact Block.toNat_address (Block.stop_lt hinside)

/-- Bytes that are added at the end of the samples, inside of the address space. -/
theorem InSamples.append (h : d.InSamples base bytes) {data : List UInt8}
    (hin : base.toNat + (bytes ++ data).length ≤ maxAddress + 1) :
    (d.setBlock (d.block.append data)).InSamples base (bytes ++ data) ∧
      (d.setBlock (d.block.append data)).labels = d.labels := by
  have hset : d.setBlock (d.block.append data) =
      { d with samples := some ⟨base, bytes.toArray ++ data⟩ } := by
    simp only [h.block, setBlock, h.current, Block.append]
  rw [hset]
  exact ⟨⟨h.current, by simp, hin⟩, rfl⟩

theorem InSamples.bytesLines (h : d.InSamples base bytes) {chunks : List (List UInt8)}
    (hshort : ∀ line ∈ chunks.map Line.bytes, line.IsShort)
    (hd : (chunks.map Line.bytes).foldlM addLine d = .ok d') :
    d'.InSamples base (bytes ++ chunks.flatten) ∧ d'.labels = d.labels := by
  induction chunks generalizing d bytes with
  | nil =>
    cases hd
    rw [List.flatten_nil, List.append_nil]
    exact ⟨h, rfl⟩
  | cons chunk chunks ih =>
    obtain ⟨u, hu, hd⟩ := bind_ok hd
    rw [check_ok hu] at hd
    have hstop : (d.setBlock (d.block.append chunk)).block.stop =
        base.toNat + (bytes ++ chunk).length := by
      rw [block_setBlock, Block.stop_append, h.stop, List.length_append, Nat.add_assoc]
    have hlt : (d.setBlock (d.block.append chunk)).block.stop < UInt32.size := by
      have hchunk := hshort (.bytes chunk) List.mem_cons_self
      have hinside := h.inside
      rw [Line.IsShort, Line.items, sizeOf_bytes] at hchunk
      rw [hstop, List.length_append]
      omega
    obtain ⟨hin, hlabels⟩ := h.append (hstop ▸ check_inside hlt hu)
    obtain ⟨hrest, hlabels'⟩ :=
      ih hin (fun line hline => hshort line (List.mem_cons_of_mem _ hline)) hd
    rw [List.append_assoc] at hrest
    exact ⟨hrest, hlabels'.trans hlabels⟩

/-- An alignment fills up with zeros. -/
theorem InSamples.align (h : d.InSamples base bytes) (hbase : base.toNat % sampleAlignment = 0)
    (hd : d.addLine (.align sampleAlignment) = .ok d') :
    d'.InSamples base
        (bytes ++ List.replicate (alignSample bytes.length - bytes.length) 0) ∧
      d'.labels = d.labels := by
  have hle := le_alignSample bytes.length
  have hstep : max 1 sampleAlignment % 0x100000000 = sampleAlignment := by decide
  have hne : sampleAlignment ≠ 0 := by decide
  simp only [addLine, hstep, if_neg hne, h.toNat_address, gap_eq hbase] at hd
  split at hd
  · cases hd
  cases hd
  refine h.append ?_
  rw [List.length_append, List.length_replicate]
  omega

/-- A label stands for the address behind the bytes, which is in the address space. -/
theorem InSamples.label (h : d.InSamples base bytes) {name : String}
    (hd : d.addLine (.label name) = .ok d') :
    d'.InSamples base bytes ∧
      d'.labels = (name, UInt16.ofNat (base.toNat + bytes.length)) :: d.labels ∧
      base.toNat + bytes.length ≤ maxAddress := by
  rw [addLine_label (h.stop ▸ h.inside), h.stop] at hd
  split at hd
  · cases hd
  rename_i hfits
  rw [check_ok hd]
  exact ⟨⟨h.current, h.samples, h.inside⟩, rfl, Nat.le_of_not_lt hfits⟩

/-- A sample is laid out at the next multiple of the alignment, behind its label. -/
theorem InSamples.sample (h : d.InSamples base bytes) (hbase : base.toNat % sampleAlignment = 0)
    {name : String} {data : List UInt8}
    (hd : (.align sampleAlignment :: .label name :: Listing.bytes data).foldlM addLine d =
      .ok d') :
    d'.InSamples base
        (bytes ++ (List.replicate (alignSample bytes.length - bytes.length) 0 ++ data)) ∧
      d'.labels = (name, UInt16.ofNat (base.toNat + alignSample bytes.length)) :: d.labels ∧
      base.toNat + alignSample bytes.length ≤ maxAddress := by
  obtain ⟨u, hu, hrest⟩ := bind_ok hd
  obtain ⟨w, hw, hlines⟩ := bind_ok hrest
  have hlength : (bytes ++ List.replicate (alignSample bytes.length - bytes.length)
      (0 : UInt8)).length = alignSample bytes.length := by
    have hle := le_alignSample bytes.length
    rw [List.length_append, List.length_replicate]
    omega
  obtain ⟨haligned, hlabels⟩ := h.align hbase hu
  obtain ⟨hlabelled, hlabel, hfits⟩ := haligned.label hw
  obtain ⟨hdata, hlabels'⟩ := hlabelled.bytesLines (fun _ => Listing.isShort_bytes) hlines
  rw [Listing.flatten_chunks, List.append_assoc] at hdata
  rw [hlength] at hlabel hfits
  exact ⟨hdata, by rw [hlabels', hlabel, hlabels], hfits⟩

/-- **Samples are laid out at their offsets**, each behind a label of its own. -/
theorem InSamples.samples_ok (h : d.InSamples base bytes)
    (hbase : base.toNat % sampleAlignment = 0) {stem : String} {n : Nat} {samples : List Sample}
    (hd : ((samples.zipIdx n).flatMap fun (s, index) =>
      [.align sampleAlignment, .label ((Label.sample index).text stem)] ++
        Listing.bytes (paddedSample s.data)).foldlM addLine d = .ok d') :
    d'.InSamples base (bytes ++ sampleBytesFrom bytes.length samples) ∧
      (∀ k start, (sampleOffsetsFrom bytes.length samples)[k]? = some start →
        base.toNat + start ≤ maxAddress ∧
        d'.labels.lookup ((Label.sample (n + k)).text stem) =
          some (UInt16.ofNat (base.toNat + start))) ∧
      ∀ name, (∀ k, n ≤ k → name ≠ (Label.sample k).text stem) →
        d'.labels.lookup name = d.labels.lookup name := by
  induction samples generalizing d bytes n with
  | nil =>
    cases hd
    rw [sampleBytesFrom, List.append_nil]
    exact ⟨h, by simp [sampleOffsetsFrom], fun _ _ => rfl⟩
  | cons s rest ih =>
    rw [List.zipIdx_cons, List.flatMap_cons, List.foldlM_append] at hd
    obtain ⟨u, hu, hd⟩ := bind_ok hd
    obtain ⟨hin, hlabels, hfits⟩ := h.sample hbase hu
    obtain ⟨hrest, hlocated, hkeeps⟩ := ih hin hd
    have hlen : (bytes ++ (List.replicate (alignSample bytes.length - bytes.length) 0 ++
        paddedSample s.data)).length = alignSample bytes.length + (paddedSample s.data).length := by
      have hle := le_alignSample bytes.length
      simp only [List.length_append, List.length_replicate]
      omega
    rw [hlen] at hrest hlocated
    rw [List.append_assoc, List.append_assoc] at hrest
    have hself : ∀ k, n + 1 ≤ k → (Label.sample n).text stem ≠ (Label.sample k).text stem := by
      intro k hk heq
      cases Label.text_inj (a := .sample n) (b := .sample k) trivial trivial heq
      omega
    refine ⟨hrest, fun k start hk => ?_, fun name hname => ?_⟩
    · cases k with
      | zero =>
        cases hk
        refine ⟨hfits, ?_⟩
        rw [Nat.add_zero, hkeeps _ hself, hlabels, List.lookup_cons_self]
      | succ k =>
        rw [show n + (k + 1) = n + 1 + k by omega]
        exact hlocated k start hk
    · rw [hkeeps name fun k hk => hname k (Nat.le_of_succ_le hk), hlabels, List.lookup_cons,
        beq_eq_false_iff_ne.2 (hname n (Nat.le_refl n))]

end Image.Draft

namespace Image

/-- Words are only filled in in the music. -/
theorem fill_samples {addresses : Std.HashMap String UInt16} {offset : Nat} {items : List Item}
    {d d' : Draft} (h : (holesFrom offset items).foldlM (fillHole addresses) d = .ok d') :
    d'.samples = d.samples := by
  induction items generalizing offset d with
  | nil =>
    cases h
    rfl
  | cons i items ih =>
    cases i with
    | byte b => exact ih h
    | label name => exact ih h
    | word w =>
      cases w with
      | value v => exact ih h
      | label name =>
        rw [holesFrom, List.foldlM_cons] at h
        obtain ⟨u, hu, hrest⟩ := bind_ok h
        obtain ⟨address, -, hfilled⟩ := fillHole_ok hu
        rw [ih hrest, hfilled]

/-- The samples of an image are those that were laid out, and its labels those of the last draft. -/
theorem assemble_samples {text : String} {base start sampleBase : UInt16}
    {lines samples : List Line} {image : Image} (hl : ∀ line ∈ lines, line.IsPlain)
    (hs : ∀ line ∈ samples, Draft.isSampleLine line = true)
    (h : assemble (.comment text :: .segment .music start ::
      (lines ++ .blank :: .segment .samples sampleBase :: samples)) base = .ok image) :
    ∃ u d, u.InSamples sampleBase [] ∧ samples.foldlM Draft.addLine u = .ok d ∧
      image.labels = d.labels ∧ image.samples = ((d.samples.map (·.bytes)).getD #[]).toList := by
  obtain ⟨d, hd, h⟩ := bind_ok h
  obtain ⟨filled, hfill, h⟩ := bind_ok h
  cases h
  have hd : (lines ++ .blank :: .segment .samples sampleBase :: samples).foldlM Draft.addLine
      { music := { base } } = .ok d := hd
  rw [List.foldlM_append] at hd
  obtain ⟨u, hu, hd⟩ := bind_ok hd
  have hadds := (Draft.adds_lines rfl (Draft.stop_start base) hl hu).1
  have hd : samples.foldlM Draft.addLine (u.enter .samples sampleBase) = .ok d := hd
  have hin : (u.enter .samples sampleBase).InSamples sampleBase [] := by
    have hnone : u.samples = none := hadds.samples
    have hlt := sampleBase.toNat_lt
    simp only [Draft.enter, hnone]
    exact ⟨rfl, rfl, by simp only [List.length_nil, maxAddress]; omega⟩
  have hkeeps := Draft.keeps_lines hin.current hs hd
  have hholes : d.holes = (holesFrom 0 (itemsOf lines)).reverse := by
    have henter : (u.enter .samples sampleBase).holes = u.holes := by
      unfold Draft.enter
      split <;> rfl
    rw [hkeeps.holes, henter, hadds.holes]
    simp
  rw [hholes, List.reverse_reverse] at hfill
  refine ⟨_, d, hin, hd, ?_, by rw [fill_samples hfill]⟩
  have hbytes : d.music.bytes.toList = [] ++ bytesOf (fun _ => none) (itemsOf lines) := by
    have henter : (u.enter .samples sampleBase).music = u.music := by
      unfold Draft.enter
      split <;> rfl
    rw [hkeeps.music, henter, hadds.bytes]
  exact (fill_ok hbytes hfill).2.1

/-- Music that no samples follow. -/
theorem assemble_noSamples {text : String} {base start : UInt16} {lines : List Line} {image : Image}
    (hl : ∀ line ∈ lines, line.IsPlain)
    (h : assemble (.comment text :: .segment .music start :: lines) base = .ok image) :
    image.samples = [] := by
  obtain ⟨d, hd, h⟩ := bind_ok h
  obtain ⟨filled, hfill, h⟩ := bind_ok h
  cases h
  have hd : lines.foldlM Draft.addLine { music := { base } } = .ok d := hd
  have hnone : d.samples = none := (Draft.adds_lines rfl (Draft.stop_start base) hl hd).1.samples
  have hkeeps : ∀ u hole u', u.samples = none →
      fillHole (Std.HashMap.ofList d.labels.reverse) u hole = .ok u' → u'.samples = none := by
    intro u hole u' hu hfilled
    unfold fillHole at hfilled
    split at hfilled
    · cases hfilled
    · split at hfilled <;> cases hfilled
      · exact hu
      · simp [hu]
  rw [foldlM_keeps (P := fun u => u.samples = none) hkeeps hfill hnone]
  rfl

end Image

namespace Layout

variable {l : Layout} {lines : List Line} {image : Image}

/-- The samples of a layout are laid out from the start of their segment on. -/
theorem samples_laid (h : l.lines = .ok lines)
    (himage : Image.assemble lines l.dataBase = .ok image)
    (hne : l.project.samples ≠ []) :
    ∃ u d, u.InSamples l.sampleBase [] ∧
      (l.project.samples.zipIdx.flatMap fun (s, index) =>
        [.align sampleAlignment, .label ((Label.sample index).text l.stem)] ++
          Listing.bytes (paddedSample s.data)).foldlM Image.Draft.addLine u = .ok d ∧
      image.labels = d.labels ∧ image.samples = ((d.samples.map (·.bytes)).getD #[]).toList := by
  obtain ⟨text, main, tables, rfl, hplain, -, -, -, -⟩ := l.lines_ok h
  let rest := l.project.samples.zipIdx.flatMap fun (s, index) =>
    [.align sampleAlignment, l.labelLine (.sample index)] ++ Listing.bytes (paddedSample s.data)
  have hlines : l.samples = .blank :: .segment .samples l.sampleBase :: rest := by
    rw [samples, if_neg (by simpa using hne)]
    rfl
  have hrest : ∀ line ∈ rest, Image.Draft.isSampleLine line = true := by
    rcases l.isSamples_samples with hnil | ⟨base, rest', hrest', hall⟩
    · rw [hlines] at hnil
      cases hnil
    · rw [hlines] at hrest'
      cases hrest'
      exact hall
  rw [hlines] at himage
  exact Image.assemble_samples hplain hrest himage

/-- **The sample segment holds the samples of the project**, each at the next multiple of the
alignment. -/
theorem samples_eq (h : l.lines = .ok lines) (himage : Image.assemble lines l.dataBase = .ok image)
    (hbase : l.project.samples ≠ [] → l.sampleBase.toNat % sampleAlignment = 0) :
    image.samples = sampleBytesFrom 0 l.project.samples := by
  by_cases hne : l.project.samples = []
  · obtain ⟨text, main, tables, rfl, hplain, -, -, -, -⟩ := l.lines_ok h
    rw [samples, if_pos (by simpa using hne), List.append_nil] at himage
    rw [Image.assemble_noSamples hplain himage, hne]
    rfl
  · obtain ⟨u, d, hin, hd, -, hsamples⟩ := samples_laid h himage hne
    rw [hsamples, (hin.samples_ok (hbase hne) hd).1.samples]
    rfl

/-- **A sample is where its offset says**, in the segment and in the address space. -/
theorem samples_ok (h : l.lines = .ok lines) (himage : Image.assemble lines l.dataBase = .ok image)
    (hbase : l.sampleBase.toNat % sampleAlignment = 0) {k start : Nat} {s : Sample}
    (hs : l.project.samples[k]? = some s) (hk : (sampleOffsets l.project)[k]? = some start) :
    (∃ address, image.address ((Label.sample k).text l.stem) = some address ∧
      address.toNat = l.sampleBase.toNat + start) ∧
      ∃ front back, image.samples = front ++ (paddedSample s.data ++ back) ∧
        front.length = start := by
  have hne : l.project.samples ≠ [] := List.ne_nil_of_mem (List.mem_of_getElem? hs)
  obtain ⟨u, d, hin, hd, hlabels, -⟩ := samples_laid h himage hne
  obtain ⟨-, hlocated, -⟩ := hin.samples_ok hbase hd
  obtain ⟨hfits, hlookup⟩ := hlocated k start hk
  rw [Nat.zero_add, ← hlabels] at hlookup
  obtain ⟨front, back, hbytes, hlen⟩ := @sampleBytesFrom_split 0 _ _ _ _ hs hk
  refine ⟨⟨_, hlookup, UInt16.toNat_ofNat_of_lt' (Nat.lt_succ_of_le hfits)⟩, front, back, ?_, ?_⟩
  · rw [samples_eq h himage fun _ => hbase]
    exact hbytes
  · rw [← hlen, Nat.zero_add]

end Layout

end Chiptune
