import Chiptune.Proofs.Playback

/-!
# Where the tables are

The tables of a layout are the records of the instruments, the entries of the sample table and the
entries of the curves, grooves and waves (`AreTables.eq`). The parts of a listing define labels of
different kinds, which `Label.part` tells apart, and the entries of a table are numbered; so no
label of a table is defined twice, and each stands for what is behind it:

* `Assembled.records_address`, `Assembled.extendedRecords_address`, `Assembled.mappings_address`;
* `Assembled.entry_address`: every entry of a table of curves or waves is where its label is.
-/

set_option autoImplicit false

namespace Chiptune

/-- Part of the listing in which a label stands. -/
def Label.part : Label → Nat
  | header => 0
  | song _ => 1
  | instruments => 2
  | extendedInstruments => 3
  | sampleTable => 4
  | envelope _ | groove _ | fdsWave _ | fdsMod _ | n163Wave _ => 5
  | stream .. | streamLoop .. | streamRef .. => 6
  | sample _ => 7

/-- Bytes and words define no labels. -/
theorem LabelsOnly.none {stem : String} {P : Label → Prop} {items : List Item}
    (h : ∀ name, .label name ∉ items) : LabelsOnly stem P items :=
  fun name hname => absurd hname (h name)

theorem LabelsOnly.cons {stem : String} {P : Label → Prop} {label : Label} {items : List Item}
    (hl : label.Named) (hP : P label) (h : LabelsOnly stem P items) :
    LabelsOnly stem P (.label (label.text stem) :: items) := by
  intro name hname
  rcases List.mem_cons.1 hname with heq | hname
  · exact ⟨label, hl, hP, Item.label.inj heq⟩
  · exact h name hname

namespace Layout

variable (l : Layout)

/-! ## Items of the tables -/

/-- Items of the record of an instrument, if it has one. -/
def instrumentItems (record : Instrument → InstrumentRecord → List Line) (index : Nat) :
    List Item :=
  match l.project.instruments[index]?, l.records[index]? with
  | some i, some (some r) => itemsOf (record i r)
  | _, _ => []

/-- Items of the entry of a mapping. -/
def mappingItems (m : SampleMapping) : List Item :=
  match l.project.samples[m.sample]?, (sampleOffsets l.project)[m.sample]? with
  | some s, some offset =>
    (sampleEntry (l.sampleBase - sampleRegisterBase).toNat offset m s).map .byte
  | _, _ => []

/-- Items of some entries of a table, numbered from a first one on. -/
def entryItems (label : Nat → Label) : Nat → List (List UInt8) → List Item
  | _, [] => []
  | n, bytes :: rest =>
    .label ((label n).text l.stem) :: (bytes.map .byte ++ entryItems label (n + 1) rest)

/-- Tables of curves, grooves and waves, with the labels of their entries. -/
def entryTables : List ((Nat → Label) × UniqueTable) :=
  [(.envelope, l.tables.curves), (.groove, l.tables.grooves), (.fdsWave, l.waves.fdsWaves),
    (.fdsMod, l.waves.fdsMods), (.n163Wave, l.waves.n163Waves)]

/-- Items of some tables. -/
def curveItems (tables : List ((Nat → Label) × UniqueTable)) : List Item :=
  tables.flatMap fun t => l.entryItems t.1 0 t.2.toList

/-- Items of all tables. -/
def tableItems : List Item :=
  .label (Label.instruments.text l.stem) ::
    (l.slots.primary.flatMap (l.instrumentItems l.primaryRecord) ++
      .label (Label.extendedInstruments.text l.stem) ::
        (l.slots.extended.flatMap (l.instrumentItems l.extendedRecord) ++
          .label (Label.sampleTable.text l.stem) ::
            ((l.project.mappings.take noteWindow.toNat).flatMap l.mappingItems ++
              l.curveItems l.entryTables)))

variable {l}

theorem itemsOf_flatten {α : Type} {f : α → Except Fault (List Line)} {items : α → List Item}
    {xs : List α} {parts : List (List Line)} (hf : ∀ x lines, f x = .ok lines →
      itemsOf lines = items x) (h : xs.mapM f = .ok parts) :
    itemsOf parts.flatten = xs.flatMap items := by
  have hall := mapM_ok h
  clear h
  induction hall with
  | nil => rfl
  | cons hx _ ih => rw [List.flatten_cons, itemsOf_append, hf _ _ hx, ih, List.flatMap_cons]

theorem itemsOf_recordLines {record : Instrument → InstrumentRecord → List Line}
    {indices : List Nat} {lines : List Line} (h : l.recordLines record indices = .ok lines) :
    itemsOf lines = indices.flatMap (l.instrumentItems record) := by
  obtain ⟨parts, hparts, h⟩ := bind_ok h
  cases h
  refine itemsOf_flatten (fun index lines hlines => ?_) hparts
  unfold instrumentItems
  split at hlines
  · rename_i hi hr
    cases hlines
    rw [hi, hr]
  · rename_i hi hr
    cases hlines
    rw [hi, hr]
    rfl
  · cases hlines

theorem itemsOf_instrumentTables {lines : List Line} (h : l.instrumentTables = .ok lines) :
    itemsOf lines = .label (Label.instruments.text l.stem) ::
      (l.slots.primary.flatMap (l.instrumentItems l.primaryRecord) ++
        .label (Label.extendedInstruments.text l.stem) ::
          l.slots.extended.flatMap (l.instrumentItems l.extendedRecord)) := by
  obtain ⟨primary, hprimary, h⟩ := bind_ok h
  obtain ⟨extended, hextended, h⟩ := bind_ok h
  cases h
  simp only [itemsOf_append, itemsOf_recordLines hprimary, itemsOf_recordLines hextended,
    itemsOf_cons, labelLine, Line.items, List.append_assoc, List.nil_append, List.cons_append]

theorem itemsOf_sampleTable {lines : List Line} (h : l.sampleTable = .ok lines) :
    itemsOf lines = .label (Label.sampleTable.text l.stem) ::
      (l.project.mappings.take noteWindow.toNat).flatMap l.mappingItems := by
  obtain ⟨parts, hparts, h⟩ := bind_ok h
  cases h
  have hflatten := @itemsOf_flatten _ _ l.mappingItems _ _ (fun m lines hlines => ?_) hparts
  · rw [itemsOf_append, hflatten]
    rfl
  unfold mappingItems
  rw [List.getElem?_toArray] at hlines
  split at hlines
  · rename_i hs
    cases hlines
    rw [hs]
    rfl
  · rename_i hs
    split at hlines
    · cases hlines
    · rename_i ho
      cases hlines
      rw [hs, ho, Listing.items_bytes]

theorem itemsOf_entries (label : Nat → Label) (table : UniqueTable) :
    itemsOf (l.entries label table) = l.entryItems label 0 table.toList := by
  unfold entries
  generalize table.toList = entries
  have hall : ∀ n, itemsOf ((entries.zipIdx n).flatMap fun entry =>
      l.labelLine (label entry.2) :: Listing.bytes entry.1) = l.entryItems label n entries := by
    induction entries with
    | nil => intro n; rfl
    | cons bytes rest ih =>
      intro n
      rw [List.zipIdx_cons, List.flatMap_cons, itemsOf_append, ih, itemsOf_cons,
        Listing.items_bytes]
      rfl
  exact hall 0

theorem itemsOf_curves : itemsOf l.curves = l.curveItems l.entryTables := by
  -- without grooves there is no title, and no entries either
  have hgrooves : itemsOf (if l.tables.grooves.size = 0 then []
      else [.blank, .comment "Grooves"] ++ l.entries .groove l.tables.grooves) =
      l.entryItems .groove 0 l.tables.grooves.toList := by
    split
    · rename_i hsize
      have hnil : l.tables.grooves.toList = [] := List.eq_nil_of_length_eq_zero hsize
      rw [hnil]
      rfl
    · rw [itemsOf_append, itemsOf_entries]
      rfl
  simp only [curves, itemsOf_append, hgrooves, itemsOf_entries, curveItems, entryTables,
    List.flatMap_cons, List.flatMap_nil, List.append_nil, List.append_assoc]
  rfl

/-- **The tables of a layout**, item by item. -/
theorem AreTables.eq {tables : List Item} (h : l.AreTables tables) : tables = l.tableItems := by
  obtain ⟨instruments, mappings, hinstruments, hmappings, rfl⟩ := h
  rw [itemsOf_append, itemsOf_append, itemsOf_instrumentTables hinstruments,
    itemsOf_sampleTable hmappings, itemsOf_curves, tableItems]
  simp only [List.append_assoc, List.cons_append]

/-! ## Labels of the tables -/

theorem notMem_bytes (bytes : List UInt8) (name : String) :
    Item.label name ∉ bytes.map Item.byte := by
  simp

theorem labels_instrumentItems {P : Label → Prop}
    {record : Instrument → InstrumentRecord → List Line}
    (h : ∀ i r, DefinesOnly l.stem P (record i r)) (indices : List Nat) :
    LabelsOnly l.stem P (indices.flatMap (l.instrumentItems record)) := by
  refine .flatMap fun index _ => ?_
  unfold instrumentItems
  split
  · exact (h _ _).labels
  · exact .none (by simp)

theorem labels_mappingItems {P : Label → Prop} (ms : List SampleMapping) :
    LabelsOnly l.stem P (ms.flatMap l.mappingItems) := by
  refine .flatMap fun m _ => ?_
  unfold mappingItems
  split
  · exact .none (notMem_bytes _)
  · exact .none (by simp)

theorem labels_entryItems {label : Nat → Label} (hl : ∀ n, (label n).Named) (n : Nat)
    (entries : List (List UInt8)) :
    LabelsOnly l.stem (fun x => ∃ m, n ≤ m ∧ x = label m) (l.entryItems label n entries) := by
  induction entries generalizing n with
  | nil => exact .none (by simp [entryItems])
  | cons bytes rest ih =>
    refine .cons (hl n) ⟨n, Nat.le_refl n, rfl⟩ (.append (.none (notMem_bytes _)) ?_)
    exact (ih (n + 1)).mono fun x ⟨m, hm, hx⟩ => ⟨m, Nat.le_of_succ_le hm, hx⟩

/-- An entry stands behind its label, and behind it are entries of greater numbers. -/
theorem entryItems_split {label : Nat → Label} (hl : ∀ n, (label n).Named) {n i : Nat}
    {entries : List (List UInt8)} {bytes : List UInt8} (hi : entries[i]? = some bytes) :
    ∃ front back, l.entryItems label n entries =
        front ++ .label ((label (n + i)).text l.stem) :: (bytes.map .byte ++ back) ∧
      LabelsOnly l.stem (fun x => ∃ m, n + i < m ∧ x = label m) back := by
  induction entries generalizing n i with
  | nil => cases hi
  | cons first rest ih =>
    cases i with
    | zero =>
      cases hi
      exact ⟨[], l.entryItems label (n + 1) rest, rfl, labels_entryItems hl (n + 1) rest⟩
    | succ i =>
      obtain ⟨front, back, hitems, hback⟩ := @ih (n + 1) i hi
      rw [show n + 1 + i = n + (i + 1) by omega] at hitems hback
      refine ⟨.label ((label n).text l.stem) :: (first.map .byte ++ front), back, ?_, hback⟩
      rw [entryItems, hitems]
      simp

/-- The labels of the entries of some tables. -/
theorem labels_curveItems {ts : List ((Nat → Label) × UniqueTable)}
    (hl : ∀ t ∈ ts, ∀ n, (t.1 n).Named) :
    LabelsOnly l.stem (fun x => ∃ t ∈ ts, ∃ m, x = t.1 m) (l.curveItems ts) :=
  .flatMap fun t ht => (labels_entryItems (hl t ht) 0 _).mono fun _ ⟨m, _, hx⟩ => ⟨t, ht, m, hx⟩

/-- The labels of entries have their own part of the listing. -/
theorem mem_entryTables {t : (Nat → Label) × UniqueTable} (ht : t ∈ l.entryTables) (n : Nat) :
    (t.1 n).Named ∧ (t.1 n).part = 5 := by
  simp only [entryTables, List.mem_cons, List.not_mem_nil, or_false] at ht
  rcases ht with rfl | rfl | rfl | rfl | rfl <;> exact ⟨trivial, rfl⟩

theorem part_curveItems :
    LabelsOnly l.stem (fun x => x.part = 5) (l.curveItems l.entryTables) := by
  refine (labels_curveItems fun t ht n => (mem_entryTables ht n).1).mono ?_
  rintro x ⟨t, ht, m, rfl⟩
  exact (mem_entryTables ht m).2

theorem labels_records (indices : List Nat) {P : Label → Prop} :
    LabelsOnly l.stem P (indices.flatMap (l.instrumentItems l.primaryRecord)) :=
  labels_instrumentItems l.defines_primaryRecord indices

theorem labels_extendedRecords (indices : List Nat) {P : Label → Prop} :
    LabelsOnly l.stem P (indices.flatMap (l.instrumentItems l.extendedRecord)) :=
  labels_instrumentItems l.defines_extendedRecord indices

/-! ## Addresses -/

variable {tables : List Item} {image : Image}

/-- A label of the tables that is not defined again stands for what is behind it. -/
theorem Assembled.finds (h : l.Assembled tables image) (hmarks : l.StreamsMarkLoops)
    {label : Label} {before block after : List Item}
    (hitems : l.tableItems = before ++ .label (label.text l.stem) :: (block ++ after))
    (hl : label.Named) (hpart : label.part < 6)
    (hafter : LabelsOnly l.stem (· ≠ label) (block ++ after)) :
    ∃ address, image.address (label.text l.stem) = some address ∧
      Player.Reads (image.memory l.dataBase) address.toNat
        (Image.bytesOf image.address block) := by
  let front := l.headerItems ++ ((l.songs.map fun song => .word (l.labelWord (.song song.index))) ++
    (l.songs.flatMap l.recordItems ++ before))
  have hall : l.items tables = front ++ .label (label.text l.stem) ::
      (block ++ (after ++ l.songs.flatMap l.songItems)) := by
    rw [items, h.listed.eq, hitems]
    simp only [front, List.append_assoc, List.cons_append]
  have hsongs : LabelsOnly l.stem (· ≠ label) (l.songs.flatMap l.songItems) := by
    refine .flatMap fun song hsong => (labels_songItems (hmarks song hsong)).mono ?_
    rintro x ⟨s, -, hx⟩ rfl
    cases x <;> first | exact hx | simp [Label.part] at hpart
  have hbehind := hafter.append hsongs
  rw [List.append_assoc] at hbehind
  have hsample : ∀ n, label ≠ .sample n := by
    rintro n rfl
    simp [Label.part] at hpart
  obtain ⟨address, haddress, hat⟩ := h.holds.located _ _ _ hall
    (hbehind.notMem hl fun hne => hne rfl) (l.notMem_samples hl hsample)
  have hreads := h.holds.reads
    (show l.items tables = (front ++ [.label (label.text l.stem)]) ++ (block ++
      (after ++ l.songs.flatMap l.songItems)) by rw [hall]; simp)
  rw [Image.sizeOf_append, Image.sizeOf_cons, Item.size, Image.sizeOf_nil, Nat.add_zero,
    ← hat] at hreads
  exact ⟨address, haddress, hreads⟩

/-- **The records of the primary table are where its label is.** -/
theorem Assembled.records_address (h : l.Assembled tables image) (hmarks : l.StreamsMarkLoops) :
    ∃ address, image.address (Label.instruments.text l.stem) = some address ∧
      Player.Reads (image.memory l.dataBase) address.toNat (Image.bytesOf image.address
        (l.slots.primary.flatMap (l.instrumentItems l.primaryRecord))) := by
  have hitems : l.tableItems = [] ++ .label (Label.instruments.text l.stem) ::
      (l.slots.primary.flatMap (l.instrumentItems l.primaryRecord) ++ _) := rfl
  refine h.finds hmarks hitems trivial (by decide) ?_
  refine (labels_records _).append (.cons trivial (by simp) ((labels_extendedRecords _).append
    (.cons trivial (by simp) ((labels_mappingItems _).append (part_curveItems.mono ?_)))))
  rintro x hx rfl
  simp [Label.part] at hx

/-- **The records of the extended table are where its label is.** -/
theorem Assembled.extendedRecords_address (h : l.Assembled tables image)
    (hmarks : l.StreamsMarkLoops) :
    ∃ address, image.address (Label.extendedInstruments.text l.stem) = some address ∧
      Player.Reads (image.memory l.dataBase) address.toNat (Image.bytesOf image.address
        (l.slots.extended.flatMap (l.instrumentItems l.extendedRecord))) := by
  have hitems : l.tableItems = (.label (Label.instruments.text l.stem) ::
      l.slots.primary.flatMap (l.instrumentItems l.primaryRecord)) ++
      .label (Label.extendedInstruments.text l.stem) ::
        (l.slots.extended.flatMap (l.instrumentItems l.extendedRecord) ++ _) := rfl
  refine h.finds hmarks hitems trivial (by decide) ?_
  refine (labels_extendedRecords _).append
    (.cons trivial (by simp) ((labels_mappingItems _).append (part_curveItems.mono ?_)))
  rintro x hx rfl
  simp [Label.part] at hx

/-- Items of the instrument tables and of the label of the sample table. -/
def mappingsFront (l : Layout) : List Item :=
  .label (Label.instruments.text l.stem) ::
    (l.slots.primary.flatMap (l.instrumentItems l.primaryRecord) ++
      .label (Label.extendedInstruments.text l.stem) ::
        l.slots.extended.flatMap (l.instrumentItems l.extendedRecord))

theorem tableItems_eq : l.tableItems = l.mappingsFront ++ .label (Label.sampleTable.text l.stem) ::
    ((l.project.mappings.take noteWindow.toNat).flatMap l.mappingItems ++
      l.curveItems l.entryTables) := by
  simp only [tableItems, mappingsFront, List.append_assoc, List.cons_append]

/-- **The entries of the sample table are where its label is.** -/
theorem Assembled.mappings_address (h : l.Assembled tables image) (hmarks : l.StreamsMarkLoops) :
    ∃ address, image.address (Label.sampleTable.text l.stem) = some address ∧
      Player.Reads (image.memory l.dataBase) address.toNat (Image.bytesOf image.address
        ((l.project.mappings.take noteWindow.toNat).flatMap l.mappingItems)) := by
  refine h.finds hmarks tableItems_eq trivial (by decide) ?_
  refine (labels_mappingItems _).append (part_curveItems.mono ?_)
  rintro x hx rfl
  simp [Label.part] at hx

/-- The layout has a table with these labels; the tables behind it have others. -/
structure HasEntries (l : Layout) (label : Nat → Label) (table : UniqueTable) : Prop where
  injective : ∀ m n, label m = label n → m = n
  listed : ∃ before after, l.entryTables = before ++ (label, table) :: after ∧
    ∀ t ∈ after, ∀ m n, t.1 m ≠ label n

theorem hasEntries_curves : l.HasEntries .envelope l.tables.curves :=
  ⟨by simp, [], _, rfl, by simp⟩

theorem hasEntries_fdsWaves : l.HasEntries .fdsWave l.waves.fdsWaves :=
  ⟨by simp, [_, _], _, rfl, by simp⟩

theorem hasEntries_fdsMods : l.HasEntries .fdsMod l.waves.fdsMods :=
  ⟨by simp, [_, _, _], _, rfl, by simp⟩

theorem hasEntries_n163Waves : l.HasEntries .n163Wave l.waves.n163Waves :=
  ⟨by simp, [_, _, _, _], _, rfl, by simp⟩

theorem bytesOf_bytes (address : String → Option UInt16) (bytes : List UInt8) :
    Image.bytesOf address (bytes.map .byte) = bytes := by
  induction bytes with
  | nil => rfl
  | cons b bytes ih => rw [List.map_cons, Image.bytesOf_cons, ih, Item.bytes, List.singleton_append]

/-- **An entry of a table of curves or waves is where its label is.** -/
theorem Assembled.entry_address (h : l.Assembled tables image) (hmarks : l.StreamsMarkLoops)
    {label : Nat → Label} {table : UniqueTable} (ht : l.HasEntries label table) {i : Nat}
    {bytes : List UInt8} (hi : table.get? i = some bytes) :
    ∃ address, image.address ((label i).text l.stem) = some address ∧
      Player.Reads (image.memory l.dataBase) address.toNat bytes := by
  obtain ⟨before, after, hlisted, hothers⟩ := ht.listed
  have hmem : (label, table) ∈ l.entryTables := by
    rw [hlisted]
    simp
  have hnamed : ∀ n, (label n).Named ∧ (label n).part = 5 := mem_entryTables hmem
  have hafter : ∀ t ∈ after, ∀ n, (t.1 n).Named := by
    intro t ht n
    have hmem : t ∈ l.entryTables := by
      rw [hlisted]
      simp [ht]
    exact (mem_entryTables hmem n).1
  have hentry : table.toList[i]? = some bytes := by
    rw [UniqueTable.toList, Array.getElem?_toList]
    exact hi
  obtain ⟨front, back, hitems, hback⟩ :=
    @entryItems_split l label (fun n => (hnamed n).1) 0 i _ _ hentry
  rw [Nat.zero_add] at hitems hback
  have htables : l.tableItems = (l.mappingsFront ++ .label (Label.sampleTable.text l.stem) ::
      ((l.project.mappings.take noteWindow.toNat).flatMap l.mappingItems ++
        (l.curveItems before ++ front))) ++ .label ((label i).text l.stem) ::
        (bytes.map .byte ++ (back ++ l.curveItems after)) := by
    rw [tableItems_eq, hlisted, curveItems, List.flatMap_append, List.flatMap_cons, hitems]
    simp only [curveItems, List.append_assoc, List.cons_append]
  have hbehind : LabelsOnly l.stem (· ≠ label i)
      (bytes.map .byte ++ (back ++ l.curveItems after)) := by
    refine (LabelsOnly.none (notMem_bytes bytes)).append ((hback.mono ?_).append
      ((labels_curveItems hafter).mono ?_))
    · rintro x ⟨m, hm, rfl⟩ heq
      exact absurd (ht.injective m i heq) (by omega)
    · rintro x ⟨t, htm, m, rfl⟩
      exact hothers t htm m i
  obtain ⟨address, haddress, hreads⟩ := h.finds hmarks htables (hnamed i).1
    (by rw [(hnamed i).2]; decide) hbehind
  rw [bytesOf_bytes] at hreads
  exact ⟨address, haddress, hreads⟩

end Layout

end Chiptune
