import Chiptune.Proofs.Records
import Chiptune.Proofs.Refusals
import Chiptune.Proofs.Samples

/-!
# Every name is defined

Words of a listing name labels that three parts of a compile choose for themselves: the generator of
the streams, the layout of the records and the writer of the streams. What they name is laid out
under the same name (`Layout.Supplied`), so a listing defines every label that a word of it names
(`Listing.IsClosed`) and its assembly has an address for each.

* `Stream.generate_refers`, `Compressor.Packs.refers`: what the addresses of a stream lead to, and
  that compressing the stream keeps it.
* `Compile.generate_supplied`: **what a compile refers to is in its layout**.
* `Layout.Supplied.exists_lines`, `Layout.Supplied.isClosed`: **it has a listing, which defines
  every name that it uses**.
-/

set_option autoImplicit false

namespace Chiptune

/-! ## Streams -/

/-- **What a stream leads to**: entries of the tables, its loop label, and tokens of its own. -/
structure Refers (stem : String) (t : Tables) (tokens : List Token) : Prop where
  labels : ∀ id, .label id ∈ tokens → ∃ (song : Nat) (channel : Channel),
    t.symbols.name? id = some ((Label.streamLoop song channel.shortName).text stem)
  symbols : ∀ id, .address (.symbol id) ∈ tokens →
    (Target.symbol id).Leads stem t ∨ .label id ∈ tokens
  offsets : ∀ n, .address (.offset n) ∈ tokens → n.toNat < tokens.length

theorem Refers.mono {stem : String} {t t' : Tables} {tokens : List Token}
    (h : Refers stem t tokens) (ht : t.Extends t') (hi : t.grooves.Indexed) :
    Refers stem t' tokens where
  labels id hid := by
    obtain ⟨song, channel, hname⟩ := h.labels id hid
    exact ⟨song, channel, ht.name? hname⟩
  symbols id hid := (h.symbols id hid).imp_left fun hleads => hleads.mono ht hi
  offsets := h.offsets

/-- **A generated stream leads to entries of the tables and to its own label.** -/
theorem Stream.generate_refers {job : Job} (hslots : job.slots.Bounded) {t t' : Tables}
    {tokens : List Token} (hb : t.Backs job.arpeggios)
    (h : Stream.generate job t = (.ok tokens, t')) :
    Refers job.stem t' tokens ∧ ∀ n, .address (.offset n) ∉ tokens := by
  have hoffsets : ∀ n, .address (.offset n) ∉ tokens := by
    intro n hn
    rcases generate_leads hslots hb h hn with hleads | ⟨id, hid, -⟩
    · exact hleads
    · cases hid
  refine ⟨⟨fun id hid => ?_, fun id hid => ?_, fun n hn => absurd hn (hoffsets n)⟩, hoffsets⟩
  · exact ⟨_, _, generate_labels h hid⟩
  · refine (generate_leads hslots hb h hid).imp_right ?_
    rintro ⟨other, heq, hother⟩
    cases heq
    exact hother

namespace Compressor

variable {k : Kernel} {opcode : UInt8} {stream source : List Token}

/-- A token of a compressed stream is one of the source, or belongs to a reference. -/
theorem Packs.mem_cases (h : Packs k opcode stream source) {token : Token} (ht : token ∈ stream) :
    token ∈ source ∨ ∃ count target passage, Replays k stream count target passage ∧
      token ∈ Reference.tokens opcode count target := by
  obtain ⟨parts, rfl, rfl, hsound⟩ := h
  obtain ⟨p, hp, hmem⟩ := List.mem_flatMap.1 ht
  cases p with
  | literal ts => exact .inl (List.mem_flatMap.2 ⟨_, hp, hmem⟩)
  | reference count target passage =>
    exact .inr ⟨count, target, passage, hsound _ hp, hmem⟩

/-- **No label is lost in a compressed stream**: a passage that is replayed has none. -/
theorem Packs.mem_label (h : Packs k opcode stream source) {id : Nat} (hid : .label id ∈ source) :
    .label id ∈ stream := by
  obtain ⟨parts, rfl, rfl, hsound⟩ := h
  obtain ⟨p, hp, hmem⟩ := List.mem_flatMap.1 hid
  cases p with
  | literal ts => exact List.mem_flatMap.2 ⟨_, hp, hmem⟩
  | reference count target passage =>
    have hreplays : Replays k _ count target passage := hsound _ hp
    cases hreplays.replayable _ hmem

/-- **Compressing a stream keeps what it leads to**; its references lead to its own tokens. -/
theorem Packs.refers (h : Packs k opcode stream source) {stem : String} {t : Tables}
    (hs : Refers stem t source) (hoffsets : ∀ n, .address (.offset n) ∉ source) :
    Refers stem t stream where
  labels id hid := hs.labels id (h.label_mem hid)
  symbols id hid := by
    rcases h.mem_cases hid with hid | ⟨count, target, passage, -, hid⟩
    · exact (hs.symbols id hid).imp_right h.mem_label
    · simp [Reference.tokens] at hid
  offsets n hn := by
    rcases h.mem_cases hn with hn | ⟨count, target, passage, hreplays, hn⟩
    · exact absurd hn (hoffsets n)
    · have heq : n = UInt32.ofNat target := by simpa [Reference.tokens] using hn
      rw [heq, UInt32.toNat_ofNat']
      exact Nat.lt_of_le_of_lt (Nat.mod_le _ _) hreplays.target_lt

end Compressor

/-! ## Listings -/

/-- **A listing that defines every label that a word of it names.** -/
def Listing.IsClosed (lines : List Line) : Prop :=
  ∀ ws, .words ws ∈ lines → ∀ name, .label name ∈ ws → .label name ∈ lines

theorem label_mem_itemsOf {lines : List Line} {name : String} :
    .label name ∈ itemsOf lines ↔ .label name ∈ lines := by
  rw [itemsOf, List.mem_flatMap]
  constructor
  · rintro ⟨line, hline, hmem⟩
    cases line <;> simp [Line.items] at hmem
    rwa [hmem]
  · exact fun h => ⟨_, h, List.mem_singleton.2 rfl⟩

theorem word_mem_itemsOf {lines : List Line} {ws : List Word} {w : Word}
    (h : .words ws ∈ lines) (hw : w ∈ ws) : .word w ∈ itemsOf lines :=
  List.mem_flatMap.2 ⟨_, h, List.mem_map_of_mem hw⟩

namespace Layout

/-- **A layout that has all that it refers to**: a record for every instrument of a table, and the
entries and tokens that its records and streams name. -/
structure Supplied (l : Layout) : Prop where
  records : ∀ table, ∀ n ∈ l.slots.table table, ∃ i r, l.project.instruments[n]? = some i ∧
    l.records[n]? = some (some r) ∧ r.Describes i l.kernel l.tables l.waves
  grooves : ∀ song ∈ l.songs, ∀ n ∈ song.groove, ∃ bytes, l.tables.grooves.get? n = some bytes
  streams : ∀ song ∈ l.songs, ∀ s ∈ song.streams, Refers l.stem l.tables s.tokens

variable {l : Layout}

/-! ## Its listing -/

theorem Refers.knows {tokens : List Token} (h : Refers l.stem l.tables tokens) :
    ∀ token ∈ tokens, l.Knows token := by
  have hlabel : ∀ id, .label id ∈ tokens → (l.tables.symbols.name? id).isSome = true := by
    intro id hid
    obtain ⟨song, channel, hname⟩ := h.labels id hid
    rw [hname]
    rfl
  rintro token ht id (rfl | rfl)
  · exact hlabel id ht
  · rcases h.symbols id ht with ⟨label, -, hname⟩ | hid
    · rw [hname]
      rfl
    · exact hlabel id hid

/-- A stream whose symbols have names can be written. -/
theorem exists_streamLines (l : Layout) (song : Nat) (channel : String) (targets : List Nat)
    {tokens : List Token} (h : ∀ token ∈ tokens, l.Knows token) (offset : Nat)
    (reversed : List UInt8) :
    ∃ lines, l.streamLines song channel targets offset reversed tokens = .ok lines := by
  induction tokens generalizing offset reversed with
  | nil => exact ⟨_, rfl⟩
  | cons token rest ih =>
    have hrest := ih fun t ht => h t (List.mem_cons_of_mem _ ht)
    have hknows := h token List.mem_cons_self
    have hname : ∀ id, token = .label id ∨ token = .address (.symbol id) →
        ∃ name, l.tables.symbols.name? id = some name := fun id hid =>
      Option.isSome_iff_exists.1 (hknows id hid)
    rw [streamLines]
    generalize (if targets.contains offset = true then _ else _ : List Line × List UInt8) = split
    obtain ⟨lead, pending⟩ := split
    cases token with
    | byte b => exact bind_succeeds (hrest _ _) fun _ => ⟨_, rfl⟩
    | opcode b => exact bind_succeeds (hrest _ _) fun _ => ⟨_, rfl⟩
    | note b => exact bind_succeeds (hrest _ _) fun _ => ⟨_, rfl⟩
    | label id =>
      obtain ⟨name, hname⟩ := hname id (.inl rfl)
      simp only [hname]
      exact bind_succeeds (hrest _ _) fun _ => ⟨_, rfl⟩
    | address target =>
      cases target with
      | symbol id =>
        obtain ⟨name, hname⟩ := hname id (.inr rfl)
        simp only [hname]
        exact bind_succeeds (hrest _ _) fun _ => ⟨_, rfl⟩
      | offset n => exact bind_succeeds (hrest _ _) fun _ => ⟨_, rfl⟩

/-- **A layout that has what it refers to has a listing.** -/
theorem Supplied.exists_lines (h : l.Supplied) : ∃ lines, l.lines = .ok lines := by
  have hrecords : ∀ (t : InstrumentTable) (record : Instrument → InstrumentRecord → List Line),
      ∃ lines, l.recordLines record (l.slots.table t) = .ok lines := by
    intro t record
    refine bind_succeeds (mapM_succeeds fun n hn => ?_) fun _ => ⟨_, rfl⟩
    obtain ⟨i, r, hi, hr, -⟩ := h.records t n hn
    simp only [hi, hr]
    exact ⟨_, rfl⟩
  have hinstruments : ∃ lines, l.instrumentTables = .ok lines :=
    bind_succeeds (hrecords .primary _) fun _ => bind_succeeds (hrecords .extended _) fun _ =>
      ⟨_, rfl⟩
  have hmappings : ∃ lines, l.sampleTable = .ok lines := by
    refine bind_succeeds (mapM_succeeds fun m _ => ?_) fun _ => ⟨_, rfl⟩
    cases hsample : l.project.samples[m.sample]? with
    | none => exact ⟨_, rfl⟩
    | some sample =>
      obtain ⟨offset, hoffset⟩ := exists_sampleOffset hsample
      simp only [List.getElem?_toArray, hoffset]
      exact ⟨_, rfl⟩
  have hstreams : ∃ lines, l.songs.mapM l.songStreams = .ok lines := by
    refine mapM_succeeds fun song hsong => ?_
    refine bind_succeeds (mapM_succeeds fun s hs => ?_) fun _ => ⟨_, rfl⟩
    exact bind_succeeds (l.exists_streamLines _ _ _ (Refers.knows (h.streams song hsong s hs)) _ _)
      fun _ => ⟨_, rfl⟩
  exact bind_succeeds hinstruments fun _ => bind_succeeds hmappings fun _ =>
    bind_succeeds hstreams fun _ => ⟨_, rfl⟩

/-! ## Its names -/

/-- The label of an entry is defined in the tables. -/
theorem mem_tableItems (label : Nat → Label) {table : UniqueTable}
    (ht : (label, table) ∈ l.entryTables) {n : Nat} {bytes : List UInt8}
    (hn : table.get? n = some bytes) : .label ((label n).text l.stem) ∈ l.tableItems := by
  have hentry : table.toList[n]? = some bytes := by
    rw [UniqueTable.toList, Array.getElem?_toList]
    exact hn
  obtain ⟨front, back, hitems, -⟩ :=
    l.entryItems_split (fun m => (mem_entryTables ht m).1) (n := 0) hentry
  have hmem : .label ((label n).text l.stem) ∈ l.curveItems l.entryTables := by
    refine List.mem_flatMap.2 ⟨_, ht, ?_⟩
    rw [hitems, Nat.zero_add]
    simp
  rw [tableItems_eq]
  simp [hmem]

theorem mem_envelope {n : Nat} {bytes : List UInt8} (hn : l.tables.curves.get? n = some bytes) :
    .label ((Label.envelope n).text l.stem) ∈ l.tableItems :=
  mem_tableItems .envelope (by simp [entryTables]) hn

theorem mem_groove {n : Nat} {bytes : List UInt8} (hn : l.tables.grooves.get? n = some bytes) :
    .label ((Label.groove n).text l.stem) ∈ l.tableItems :=
  mem_tableItems .groove (by simp [entryTables]) hn

/-- Bytes name nothing. -/
theorem word_notMem_bytes (bytes : List UInt8) (w : Word) : Item.word w ∉ bytes.map Item.byte := by
  intro hmem
  obtain ⟨b, -, hb⟩ := List.mem_map.1 hmem
  cases hb

/-- The words of a record name entries. -/
theorem closed_record {i : Instrument} {r : InstrumentRecord}
    (hr : r.Describes i l.kernel l.tables l.waves) (t : InstrumentTable) {name : String}
    (hname : .word (.label name) ∈ itemsOf (l.recordOf t i r)) : .label name ∈ l.tableItems := by
  have hcurves : .word (.label name) ∈ (l.curveWords r.curves).map Item.word →
      .label name ∈ l.tableItems := by
    intro hname
    simp only [curveWords, labelWord, List.map_cons, List.map_nil, List.mem_cons, Item.word.injEq,
      Word.label.injEq, List.not_mem_nil, or_false] at hname
    rcases hname with rfl | rfl | rfl
    · exact mem_envelope hr.volume
    · exact mem_envelope hr.arpeggio
    · exact mem_envelope hr.pitch
  cases t with
  | primary =>
    rw [recordOf, items_primaryRecord] at hname
    rcases List.mem_append.1 hname with hname | hname
    · exact hcurves hname
    rcases List.mem_cons.1 hname with heq | hname
    · cases heq
      exact mem_envelope hr.duty
    · exact absurd hname (word_notMem_bytes _ _)
  | extended =>
    rw [recordOf, items_extendedRecord] at hname
    rcases List.mem_append.1 hname with hname | hname
    · exact hcurves hname
    have hwaves := hr.waves
    have hduty : .word (.label name) ∈ Item.word (l.labelWord (.envelope r.curves.duty)) ::
        [r.curves.dutyInit, 0, 0, 0, 0, 0, 0, 0].map Item.byte → .label name ∈ l.tableItems := by
      intro hname
      rcases List.mem_cons.1 hname with heq | hname
      · cases heq
        exact mem_envelope hr.duty
      · exact absurd hname (word_notMem_bytes _ _)
    simp only [InstrumentWaves.Describes] at hwaves
    simp only [extendedItems] at hname
    cases hkind : i.kind with
    | vrc7 patch regs =>
      simp only [hkind] at hname
      exact absurd hname (word_notMem_bytes _ _)
    | fds modSpeed modDepth modDelay =>
      simp only [hkind] at hname hwaves
      obtain ⟨wave, modulation, hw, hwave, hmodulation⟩ := hwaves
      simp only [hw] at hname
      rcases List.mem_cons.1 hname with heq | hname
      · cases heq
        exact mem_tableItems .fdsWave (by simp [entryTables]) hwave
      rcases List.mem_cons.1 hname with heq | hname
      · cases heq
        exact mem_tableItems .fdsMod (by simp [entryTables]) hmodulation
      rcases List.mem_cons.1 hname with heq | hname
      · cases heq
      · exact absurd hname (word_notMem_bytes _ _)
    | n163 wavePos waveSize =>
      simp only [hkind] at hname hwaves
      obtain ⟨wave, hw, hwave⟩ := hwaves
      simp only [hw] at hname
      rcases List.mem_cons.1 hname with heq | hname
      · cases heq
        exact mem_tableItems .n163Wave (by simp [entryTables]) hwave
      · exact absurd hname (word_notMem_bytes _ _)
    | apu | mmc5 | vrc6 | s5b =>
      simp only [hkind] at hname
      exact hduty hname

/-- The words of a stream are those of its address tokens. -/
theorem exists_token_of_word {song : Nat} {channel : String} {targets : List Nat} {offset : Nat}
    {tokens : List Token} {w : Word}
    (h : .word w ∈ l.tokenItems song channel targets offset tokens) :
    ∃ target, .address target ∈ tokens ∧
      l.tokenItem song channel (.address target) = .word w := by
  induction tokens generalizing offset with
  | nil => exact absurd h List.not_mem_nil
  | cons token rest ih =>
    rw [tokenItems] at h
    rcases List.mem_append.1 h with h | h
    · unfold targetItems at h
      split at h
      · cases List.mem_singleton.1 h
      · exact absurd h List.not_mem_nil
    rcases List.mem_cons.1 h with heq | h
    · cases token with
      | address target => exact ⟨target, List.mem_cons_self, heq.symm⟩
      | _ => cases heq
    · obtain ⟨target, hmem, heq⟩ := ih h
      exact ⟨target, List.mem_cons_of_mem _ hmem, heq⟩

/-- **The words of a stream name entries, its loop label and its tokens.** -/
theorem closed_stream {song : Nat} {channel : Channel} {tokens : List Token}
    (h : Refers l.stem l.tables tokens) {name : String}
    (hname : .word (.label name) ∈ l.tokenItems song channel.shortName (targets tokens) 0 tokens) :
    .label name ∈ l.tableItems ∨
      .label name ∈ l.tokenItems song channel.shortName (targets tokens) 0 tokens := by
  obtain ⟨target, htarget, heq⟩ := exists_token_of_word hname
  cases target with
  | symbol id =>
    rcases h.symbols id htarget with ⟨label, hentry, hlabel⟩ | hid
    · rw [tokenItem, hlabel] at heq
      cases heq
      cases hentry with
      | envelope hn => exact .inl (mem_envelope hn)
      | groove hn => exact .inl (mem_groove (UniqueTable.get?_of_find? hn))
    · have hmem : .label ((l.tables.symbols.name? id).getD "") ∈
          l.tokenItems song channel.shortName (targets tokens) 0 tokens := tokenItem_mem hid
      cases heq
      exact .inr hmem
  | offset n =>
    have hlt := h.offsets n htarget
    have hn : n.toNat ∈ targets tokens := List.mem_filterMap.2 ⟨_, htarget, rfl⟩
    obtain ⟨front, back, hitems, -⟩ :=
      tokenItems_split song hn (Nat.zero_le _) (by omega) h.labels
    cases heq
    rw [hitems]
    exact .inr (List.mem_append_right _ List.mem_cons_self)

theorem word_notMem_entryItems (label : Nat → Label) (n : Nat) (entries : List (List UInt8))
    (w : Word) : .word w ∉ l.entryItems label n entries := by
  induction entries generalizing n with
  | nil => exact List.not_mem_nil
  | cons bytes rest ih => simp [entryItems, ih]

/-- The words of the tables are those of the instrument records. -/
theorem Supplied.closed_tables (h : l.Supplied) {name : String}
    (hname : .word (.label name) ∈ l.tableItems) : .label name ∈ l.tableItems := by
  have hrecords : ∀ t : InstrumentTable, .word (.label name) ∈
      (l.slots.table t).flatMap (l.instrumentItems (l.recordOf t)) →
      .label name ∈ l.tableItems := by
    intro t hname
    obtain ⟨n, hn, hname⟩ := List.mem_flatMap.1 hname
    obtain ⟨i, r, hi, hr, hdescribes⟩ := h.records t n hn
    rw [instrumentItems_eq hi hr] at hname
    exact closed_record hdescribes t hname
  rw [tableItems] at hname
  rcases List.mem_cons.1 hname with heq | hname
  · cases heq
  rcases List.mem_append.1 hname with hname | hname
  · exact hrecords .primary hname
  rcases List.mem_cons.1 hname with heq | hname
  · cases heq
  rcases List.mem_append.1 hname with hname | hname
  · exact hrecords .extended hname
  rcases List.mem_cons.1 hname with heq | hname
  · cases heq
  rcases List.mem_append.1 hname with hname | hname
  · obtain ⟨m, -, hname⟩ := List.mem_flatMap.1 hname
    unfold mappingItems at hname
    split at hname
    · exact absurd hname (word_notMem_bytes _ _)
    · exact absurd hname List.not_mem_nil
  · obtain ⟨t, -, hname⟩ := List.mem_flatMap.1 hname
    exact absurd hname (word_notMem_entryItems _ _ _ _)

/-- **Every word names a label that the items define.** -/
theorem Supplied.closed (h : l.Supplied) {name : String}
    (hname : .word (.label name) ∈ l.items l.tableItems) : .label name ∈ l.items l.tableItems := by
  have htable : .label name ∈ l.tableItems → .label name ∈ l.items l.tableItems := fun hmem => by
    simp [items, hmem]
  have hrecord : ∀ song ∈ l.songs, ∀ x ∈ l.recordItems song, x ∈ l.items l.tableItems := by
    intro song hsong x hx
    have := List.mem_flatMap.2 ⟨song, hsong, hx⟩
    simp only [items, List.mem_append, this, true_or, or_true]
  have hstream : ∀ song ∈ l.songs, ∀ s ∈ song.streams, ∀ x ∈ l.streamItems song.index s,
      x ∈ l.items l.tableItems := by
    intro song hsong s hs x hx
    have hsongItems : x ∈ l.songItems song := List.mem_flatMap.2 ⟨s, hs, hx⟩
    have := List.mem_flatMap.2 ⟨song, hsong, hsongItems⟩
    simp only [items, List.mem_append, this, or_true]
  rw [items] at hname
  rcases List.mem_append.1 hname with hname | hname
  · -- the header names the tables
    refine htable ?_
    simp only [headerItems, labelWord, List.mem_cons, reduceCtorEq, Item.word.injEq,
      Word.label.injEq, false_or, List.not_mem_nil, or_false] at hname
    rcases hname with rfl | rfl | rfl <;> simp [tableItems]
  rcases List.mem_append.1 hname with hname | hname
  · -- and the song records
    obtain ⟨song, hsong, heq⟩ := List.mem_map.1 hname
    cases heq
    exact hrecord song hsong _ List.mem_cons_self
  rcases List.mem_append.1 hname with hname | hname
  · -- which name their streams and their groove
    obtain ⟨song, hsong, hname⟩ := List.mem_flatMap.1 hname
    simp only [recordItems, List.mem_cons, List.mem_append, List.mem_map, reduceCtorEq,
      List.not_mem_nil, or_false, false_or] at hname
    rcases hname with ⟨s, hs, heq⟩ | heq
    · cases heq
      exact hstream song hsong s hs _ List.mem_cons_self
    · cases hgroove : song.groove with
      | none => simp [hgroove] at heq
      | some n =>
        simp only [hgroove, labelWord, Item.word.injEq, Word.label.injEq] at heq
        obtain ⟨bytes, hn⟩ := h.grooves song hsong n hgroove
        subst heq
        exact htable (mem_groove hn)
  rcases List.mem_append.1 hname with hname | hname
  · exact htable (h.closed_tables hname)
  · obtain ⟨song, hsong, hname⟩ := List.mem_flatMap.1 hname
    obtain ⟨s, hs, hname⟩ := List.mem_flatMap.1 hname
    rcases List.mem_cons.1 hname with heq | hname
    · cases heq
    rcases closed_stream (h.streams song hsong s hs) hname with hmem | hmem
    · exact htable hmem
    · exact hstream song hsong s hs _ (List.mem_cons_of_mem _ hmem)

/-- **A layout that has what it refers to defines every name that its listing uses.** -/
theorem Supplied.isClosed (h : l.Supplied) {lines : List Line} (hl : l.lines = .ok lines) :
    Listing.IsClosed lines := by
  obtain ⟨text, main, tables, rfl, -, hitems, htables, -, -⟩ := l.lines_ok hl
  rw [htables.eq] at hitems
  intro ws hws name hname
  have hmain : .words ws ∈ main := by
    have hsamples := l.isSamples_samples
    simp only [List.mem_cons, reduceCtorEq, false_or, List.mem_append] at hws
    refine hws.resolve_right fun hmem => ?_
    -- samples hold no words
    rcases hsamples with hnil | ⟨base, rest, hrest, hall⟩
    · rw [hnil] at hmem
      exact absurd hmem List.not_mem_nil
    · rw [hrest] at hmem
      simp only [List.mem_cons, reduceCtorEq, false_or] at hmem
      cases hall _ hmem
  have hword := word_mem_itemsOf hmain hname
  rw [hitems] at hword
  have hlabel := h.closed hword
  rw [← hitems, label_mem_itemsOf] at hlabel
  simp [hlabel]

/-- Only samples are aligned. -/
theorem align_of_mem_lines {lines : List Line} (hl : l.lines = .ok lines) {n : Nat}
    (hn : .align n ∈ lines) : n = sampleAlignment := by
  obtain ⟨text, main, tables, rfl, hplain, -⟩ := l.lines_ok hl
  simp only [List.mem_cons, reduceCtorEq, false_or, List.mem_append] at hn
  rcases hn with hn | hn
  · cases hplain _ hn
  unfold samples at hn
  split at hn
  · exact absurd hn List.not_mem_nil
  simp only [List.mem_append, List.mem_cons, List.not_mem_nil, reduceCtorEq, or_false,
    List.mem_flatMap, false_or, labelLine, Line.align.injEq] at hn
  obtain ⟨x, -, hn | hn⟩ := hn
  · exact hn
  · obtain ⟨chunk, -, heq⟩ := List.mem_map.1 hn
    cases heq

end Layout

/-! ## What a compile refers to -/

namespace Compile

variable {o : Options} {p : Project} {slots : Slots} {arpeggios : List Nat} {t t' : Tables}

/-- **A stream of a compile leads to entries of its tables and into itself**, packed or not. -/
theorem Generates.refers {s : ChannelStream} {index : Nat} {source : Song}
    {patches : Option PatchTimeline} (hslots : slots.Bounded) (hb : t.Backs arpeggios)
    (h : Generates (streamJob o p slots arpeggios index source patches) t t' s) :
    Refers o.labelStem t' (packStream o.kernel o.compression s).1.tokens := by
  obtain ⟨u, u', hgenerate, hfrom, hto⟩ := h
  have hu := hb.mono hfrom
  obtain ⟨opcode, hk⟩ := o.kernel.opcode_reference
  obtain ⟨hrefers, hoffsets⟩ := Stream.generate_refers hslots hu hgenerate
  have hpacks :=
    Compressor.apply_packs hk (Stream.generate_playable hgenerate).complete o.compression
  have hindexed := (Stream.extends_generate hgenerate).grooves.indexed hu.indexed
  exact hpacks.refers (hrefers.mono hto hindexed) hoffsets

/-- **What a compile refers to is in its layout.** -/
theorem generate_supplied {g : Generated} (h : generate o p = .ok g) :
    (packedLayout o p g).Supplied := by
  obtain ⟨hassigned, hdescribes⟩ := generate_describes h
  obtain ⟨r, selected, songs, tables, hprepare, -, hsongs, rfl⟩ := generate_iff.1 h
  have hb := backs_prepare hprepare
  obtain ⟨-, -, log, log', t, hassign, -, -⟩ := prepare_ok hprepare
  have hbounded := Slots.bounded_assign p o.kernel log
  rw [hassign] at hbounded
  refine ⟨fun table n hn => ?_, fun song hsong n hn => ?_, fun song hsong s hs => ?_⟩
  · obtain ⟨slot, hslot⟩ := hassigned table n hn
    exact hdescribes n slot hslot
  · obtain ⟨source, hsource, rfl⟩ := List.mem_map.1 hsong
    obtain ⟨song, hrecords⟩ := addSongs_records hb.indexed hsongs source hsource
    obtain ⟨bytes, hfound⟩ := hrecords.entry n hn
    exact ⟨bytes, UniqueTable.get?_of_find? hfound⟩
  · obtain ⟨source, hsource, rfl⟩ := List.mem_map.1 hsong
    obtain ⟨stream, hstream, rfl⟩ := exists_of_mem_packed hs
    obtain ⟨song, patches, -, -, -, -, hall⟩ := ((addSongs_ok hsongs).2.2 source hsource).streams
    exact (hall stream hstream).refers hbounded hb

end Compile

end Chiptune
