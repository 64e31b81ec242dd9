import Chiptune.Proofs.LoopRows
import Chiptune.Proofs.Sections

/-!
# Every label is defined once

The labels of a layout, in the order of its lines, are those of the header, the songs, the tables,
the streams and the samples (`Layout.labels`). Those of different parts differ, the entries of a
table and the targets of a stream are numbered, and a stream has one loop at most. So a label is
defined twice only if a song is laid out twice.

* `Layout.labelNames_eq`: which labels the lines of a layout define.
* `Layout.nodup_labels`: they differ if the songs do.
* `Compile.compile_labels`: **every label is defined once, unless a song was selected twice**.
-/

set_option autoImplicit false

namespace Chiptune

/-! ## Names of labels -/

/-- Name of a label that an item defines. -/
def Item.labelName : Item → Option String
  | .label name => some name
  | _ => none

/-- Names of the labels among some items, in order. -/
def namesOf (items : List Item) : List String := items.filterMap Item.labelName

theorem namesOf_append (items more : List Item) :
    namesOf (items ++ more) = namesOf items ++ namesOf more :=
  List.filterMap_append

theorem namesOf_eq_nil {items : List Item} (h : ∀ name, .label name ∉ items) :
    namesOf items = [] := by
  refine List.filterMap_eq_nil_iff.2 fun item hitem => ?_
  cases item with
  | label name => exact absurd hitem (h name)
  | _ => rfl

theorem namesOf_flatMap {α : Type} (f : α → List Item) (xs : List α) :
    namesOf (xs.flatMap f) = xs.flatMap fun x => namesOf (f x) := by
  induction xs with
  | nil => rfl
  | cons x xs ih => rw [List.flatMap_cons, namesOf_append, ih, List.flatMap_cons]

/-- The labels of lines are those of their items. -/
theorem Image.labelNames_eq (lines : List Line) : labelNames lines = namesOf (itemsOf lines) := by
  induction lines with
  | nil => rfl
  | cons line rest ih =>
    rw [itemsOf_cons, namesOf_append, ← ih]
    cases line with
    | label name => rfl
    | bytes data => rw [namesOf_eq_nil (by simp [Line.items])]; rfl
    | words data => rw [namesOf_eq_nil (by simp [Line.items])]; rfl
    | _ => rfl

/-- The items define these labels, in this order. -/
def LabelsAre (stem : String) (items : List Item) (labels : List Label) : Prop :=
  namesOf items = labels.map (Label.text stem)

namespace LabelsAre

variable {stem : String} {items more : List Item} {labels others : List Label}

theorem none (h : ∀ name, .label name ∉ items) : LabelsAre stem items [] := namesOf_eq_nil h

theorem cons (label : Label) (h : LabelsAre stem items labels) :
    LabelsAre stem (.label (label.text stem) :: items) (label :: labels) :=
  congrArg (label.text stem :: ·) h

theorem append (h : LabelsAre stem items labels) (h' : LabelsAre stem more others) :
    LabelsAre stem (items ++ more) (labels ++ others) := by
  rw [LabelsAre, namesOf_append, h, h', List.map_append]

theorem flatMap {α : Type} {f : α → List Item} {g : α → List Label} {xs : List α}
    (h : ∀ x ∈ xs, LabelsAre stem (f x) (g x)) :
    LabelsAre stem (xs.flatMap f) (xs.flatMap g) := by
  rw [LabelsAre, namesOf_flatMap, List.map_flatMap]
  exact List.flatMap_congr h

end LabelsAre

/-! ## The labels of a layout -/

namespace Layout

/-- Label in front of a token that a reference names. -/
def targetLabels (song : Nat) (channel : String) (targets : List Nat) (offset : Nat) :
    List Label :=
  if targets.contains offset then [.streamRef song channel offset] else []

/-- Label of a token that marks the loop. -/
def loopLabels (song : Nat) (channel : String) (token : Token) : List Label :=
  if token.isLabel then [.streamLoop song channel] else []

/-- Labels of the tokens of a stream from an offset on. -/
def tokenLabels (song : Nat) (channel : String) (targets : List Nat) : Nat → List Token → List Label
  | _, [] => []
  | offset, token :: rest =>
    targetLabels song channel targets offset ++ (loopLabels song channel token ++
      tokenLabels song channel targets (offset + 1) rest)

/-- Labels of a stream. -/
def streamLabels (song : Nat) (s : ChannelStream) : List Label :=
  .stream song s.channel.shortName ::
    tokenLabels song s.channel.shortName (targets s.tokens) 0 s.tokens

/-- Labels of the streams of a song. -/
def songLabels (song : SongData) : List Label := song.streams.flatMap (streamLabels song.index)

/-- Labels of the entries of some tables. -/
def entryLabels (tables : List ((Nat → Label) × UniqueTable)) : List Label :=
  tables.flatMap fun t => (List.range t.2.size).map t.1

variable (l : Layout)

/-- Labels of the tables. -/
def tableLabels : List Label :=
  .instruments :: .extendedInstruments :: .sampleTable :: entryLabels l.entryTables

/-- Labels of the music. -/
def musicLabels : List Label :=
  .header :: (l.songs.map (fun song => .song song.index) ++
    (l.tableLabels ++ l.songs.flatMap songLabels))

/-- Labels of the layout, in the order of its lines. -/
def labels : List Label :=
  l.musicLabels ++ (List.range l.project.samples.length).map .sample

/-- The label tokens of a stream mark its own loop. -/
def MarksLoop (song : Nat) (s : ChannelStream) : Prop :=
  ∀ id, .label id ∈ s.tokens →
    l.tables.symbols.name? id = some ((Label.streamLoop song s.channel.shortName).text l.stem)

variable {l}

theorem labelsAre_tokenItems {song : Nat} {channel : String} {tokens : List Token}
    (h : ∀ id, .label id ∈ tokens →
      l.tables.symbols.name? id = some ((Label.streamLoop song channel).text l.stem))
    (targets : List Nat) (offset : Nat) :
    LabelsAre l.stem (l.tokenItems song channel targets offset tokens)
      (tokenLabels song channel targets offset tokens) := by
  induction tokens generalizing offset with
  | nil => rfl
  | cons token rest ih =>
    have htarget : LabelsAre l.stem (l.targetItems song channel targets offset)
        (targetLabels song channel targets offset) := by
      unfold targetItems targetLabels
      split <;> rfl
    have htoken : LabelsAre l.stem [l.tokenItem song channel token]
        (loopLabels song channel token) := by
      cases token with
      | label id =>
        have hname := h id List.mem_cons_self
        rw [tokenItem, hname]
        rfl
      | address target => cases target <;> rfl
      | _ => rfl
    exact htarget.append (htoken.append
      (ih (fun id hid => h id (List.mem_cons_of_mem _ hid)) (offset + 1)))

theorem labelsAre_streamItems {song : Nat} {s : ChannelStream} (h : l.MarksLoop song s) :
    LabelsAre l.stem (l.streamItems song s) (streamLabels song s) :=
  (labelsAre_tokenItems h _ 0).cons _

theorem labelsAre_recordItems (song : SongData) :
    LabelsAre l.stem (l.recordItems song) [.song song.index] :=
  (LabelsAre.none (by simp)).cons _

theorem labelsAre_entryItems (label : Nat → Label) (n : Nat) (entries : List (List UInt8)) :
    LabelsAre l.stem (l.entryItems label n entries)
      ((List.range' n entries.length).map label) := by
  induction entries generalizing n with
  | nil => rfl
  | cons bytes rest ih =>
    exact ((LabelsAre.none (notMem_bytes bytes)).append (ih (n + 1))).cons _

theorem labelsAre_curveItems (tables : List ((Nat → Label) × UniqueTable)) :
    LabelsAre l.stem (l.curveItems tables) (entryLabels tables) := by
  refine .flatMap fun t _ => ?_
  rw [List.range_eq_range']
  exact labelsAre_entryItems t.1 0 t.2.toList

theorem labelsAre_instrumentItems {record : Instrument → InstrumentRecord → List Line}
    (h : ∀ i r, DefinesOnly l.stem (fun _ => False) (record i r)) (indices : List Nat) :
    LabelsAre l.stem (indices.flatMap (l.instrumentItems record)) [] := by
  refine .none fun name hname => ?_
  obtain ⟨-, -, hfalse, -⟩ := labels_instrumentItems h indices name hname
  exact hfalse

theorem labelsAre_mappingItems (ms : List SampleMapping) :
    LabelsAre l.stem (ms.flatMap l.mappingItems) [] := by
  refine .none fun name hname => ?_
  obtain ⟨-, -, hfalse, -⟩ := labels_mappingItems (P := fun _ => False) ms name hname
  exact hfalse

theorem labelsAre_tableItems : LabelsAre l.stem l.tableItems l.tableLabels :=
  ((labelsAre_instrumentItems l.defines_primaryRecord _).append
    (((labelsAre_instrumentItems l.defines_extendedRecord _).append
      (((labelsAre_mappingItems _).append (labelsAre_curveItems _)).cons _)).cons _)).cons _

/-- The labels of the samples are numbered. -/
theorem labelNames_samples : Image.labelNames l.samples =
    ((List.range l.project.samples.length).map Label.sample).map (Label.text l.stem) := by
  have hnumbered : ∀ (samples : List Sample) (n : Nat),
      Image.labelNames ((samples.zipIdx n).flatMap fun x =>
        [.align sampleAlignment, l.labelLine (.sample x.2)] ++
          Listing.bytes (paddedSample x.1.data)) =
        ((List.range' n samples.length).map Label.sample).map (Label.text l.stem) := by
    intro samples
    induction samples with
    | nil => exact fun _ => rfl
    | cons s rest ih =>
      intro n
      have hdata : Image.labelNames (Listing.bytes (paddedSample s.data)) = [] := by
        rw [Image.labelNames_eq, Listing.items_bytes]
        exact namesOf_eq_nil (notMem_bytes _)
      have hrest := ih (n + 1)
      unfold Image.labelNames at hdata hrest ⊢
      rw [List.zipIdx_cons, List.flatMap_cons, List.filterMap_append, List.filterMap_append,
        hdata, hrest]
      rfl
  unfold samples
  split
  · rename_i hnone
    rw [List.isEmpty_iff.1 hnone]
    rfl
  · rw [List.range_eq_range', ← hnumbered]
    rfl

/-- **The labels that the lines of a layout define.** -/
theorem labelNames_eq {lines : List Line} (h : l.lines = .ok lines)
    (hloops : ∀ song ∈ l.songs, ∀ s ∈ song.streams, l.MarksLoop song.index s) :
    Image.labelNames lines = l.labels.map (Label.text l.stem) := by
  obtain ⟨text, main, tables, rfl, -, hitems, htables, -, -⟩ := l.lines_ok h
  obtain rfl := htables.eq
  have hheader : LabelsAre l.stem l.headerItems [.header] := rfl
  have hwords : LabelsAre l.stem (l.songs.map fun song => .word (l.labelWord (.song song.index)))
      [] := .none (by simp)
  have hrecords : LabelsAre l.stem (l.songs.flatMap l.recordItems)
      (l.songs.map fun song => .song song.index) := by
    rw [List.map_eq_flatMap]
    exact .flatMap fun song _ => labelsAre_recordItems song
  have hstreams : LabelsAre l.stem (l.songs.flatMap l.songItems) (l.songs.flatMap songLabels) :=
    .flatMap fun song hsong => .flatMap fun s hs => labelsAre_streamItems (hloops song hsong s hs)
  have hmusic : Image.labelNames main = l.musicLabels.map (Label.text l.stem) := by
    rw [Image.labelNames_eq, hitems]
    exact hheader.append (hwords.append (hrecords.append (labelsAre_tableItems.append hstreams)))
  have hlines : Image.labelNames (.comment text :: .segment .music l.dataBase ::
      (main ++ l.samples)) = Image.labelNames main ++ Image.labelNames l.samples :=
    List.filterMap_append
  rw [hlines, hmusic, labelNames_samples, ← List.map_append, labels]

/-! ## They differ -/

end Layout

/-- Song and channel of the stream that a label belongs to. -/
def Label.owner : Label → Option (Nat × String)
  | stream n channel | streamLoop n channel | streamRef n channel _ => some (n, channel)
  | _ => none

/-- First label of the table that a label belongs to. -/
def Label.first : Label → Option Label
  | envelope _ => some (envelope 0)
  | groove _ => some (groove 0)
  | fdsWave _ => some (fdsWave 0)
  | fdsMod _ => some (fdsMod 0)
  | n163Wave _ => some (n163Wave 0)
  | _ => none

namespace Layout

variable {l : Layout}

/-- Lists of labels that are told apart by keys of their own have no label twice. -/
theorem nodup_flatMap_of_key {α κ : Type} {f : α → List Label} {key : α → κ} {xs : List α}
    (keyOf : Label → Option κ) (hkeys : (xs.map key).Nodup)
    (hf : ∀ x ∈ xs, (f x).Nodup) (hkey : ∀ x ∈ xs, ∀ label ∈ f x, keyOf label = some (key x)) :
    (xs.flatMap f).Nodup := by
  refine List.nodup_flatMap.2 ⟨hf, ?_⟩
  have hpairs := List.pairwise_map.1 hkeys
  refine hpairs.imp_of_mem fun {x y} hx hy hne label hlabel hlabel' => hne ?_
  exact Option.some.inj ((hkey x hx label hlabel).symm.trans (hkey y hy label hlabel'))

/-- Labels of parts that follow one another differ. -/
theorem nodup_append_of_part {labels others : List Label} (h : labels.Nodup) (h' : others.Nodup)
    (hpart : ∀ x ∈ labels, ∀ y ∈ others, x.part < y.part) : (labels ++ others).Nodup := by
  refine List.nodup_append.2 ⟨h, h', fun x hx y hy heq => ?_⟩
  have hlt := hpart x hx y hy
  rw [heq] at hlt
  exact Nat.lt_irrefl _ hlt

theorem mem_targetLabels {song : Nat} {channel : String} {targets : List Nat} {offset : Nat}
    {label : Label} (h : label ∈ targetLabels song channel targets offset) :
    label = .streamRef song channel offset := by
  unfold targetLabels at h
  split at h
  · exact List.mem_singleton.1 h
  · cases h

theorem mem_loopLabels {song : Nat} {channel : String} {token : Token} {label : Label}
    (h : label ∈ loopLabels song channel token) :
    label = .streamLoop song channel ∧ token.isLabel = true := by
  unfold loopLabels at h
  split at h
  · rename_i hlabel
    exact ⟨List.mem_singleton.1 h, hlabel⟩
  · cases h

/-- What the labels of the tokens of a stream are: targets from an offset on, and its loop if there
is a label token. -/
theorem mem_tokenLabels {song : Nat} {channel : String} {targets : List Nat} {offset : Nat}
    {tokens : List Token} {label : Label}
    (h : label ∈ tokenLabels song channel targets offset tokens) :
    (∃ target, offset ≤ target ∧ label = .streamRef song channel target) ∨
      label = .streamLoop song channel ∧ 0 < tokens.countP Token.isLabel := by
  induction tokens generalizing offset with
  | nil => cases h
  | cons token rest ih =>
    rw [tokenLabels, List.mem_append, List.mem_append] at h
    rcases h with h | h | h
    · exact .inl ⟨offset, Nat.le_refl _, mem_targetLabels h⟩
    · obtain ⟨rfl, hlabel⟩ := mem_loopLabels h
      exact .inr ⟨rfl, List.countP_pos_iff.2 ⟨token, List.mem_cons_self, hlabel⟩⟩
    · rcases ih h with ⟨target, hle, rfl⟩ | ⟨rfl, hcount⟩
      · exact .inl ⟨target, Nat.le_of_succ_le hle, rfl⟩
      · refine .inr ⟨rfl, Nat.lt_of_lt_of_le hcount ?_⟩
        exact (List.sublist_cons_self token rest).countP_le

/-- The targets of a stream are numbered, and it has no more than one loop. -/
theorem nodup_tokenLabels (song : Nat) (channel : String) (targets : List Nat) (offset : Nat)
    {tokens : List Token} (h : tokens.countP Token.isLabel ≤ 1) :
    (tokenLabels song channel targets offset tokens).Nodup := by
  induction tokens generalizing offset with
  | nil => exact List.nodup_nil
  | cons token rest ih =>
    rw [List.countP_cons] at h
    have hrest := ih (offset + 1) (by omega)
    have hloop : (loopLabels song channel token ++
        tokenLabels song channel targets (offset + 1) rest).Nodup := by
      refine List.nodup_append.2 ⟨?_, hrest, ?_⟩
      · unfold loopLabels
        split <;> simp
      · rintro x hx y hy rfl
        obtain ⟨rfl, htoken⟩ := mem_loopLabels hx
        rcases mem_tokenLabels hy with ⟨target, -, heq⟩ | ⟨-, hcount⟩
        · cases heq
        · rw [if_pos htoken] at h
          omega
    refine List.nodup_append.2 ⟨?_, hloop, ?_⟩
    · unfold targetLabels
      split <;> simp
    · rintro x hx y hy rfl
      obtain rfl := mem_targetLabels hx
      rcases List.mem_append.1 hy with hy | hy
      · cases (mem_loopLabels hy).1
      · rcases mem_tokenLabels hy with ⟨target, hle, heq⟩ | ⟨heq, -⟩
        · cases heq
          omega
        · cases heq

/-- The labels of a stream belong to it. -/
theorem owner_streamLabels {song : Nat} {s : ChannelStream} :
    ∀ label ∈ streamLabels song s, label.owner = some (song, s.channel.shortName) := by
  intro label hlabel
  rcases List.mem_cons.1 hlabel with rfl | hlabel
  · rfl
  · rcases mem_tokenLabels hlabel with ⟨target, -, rfl⟩ | ⟨rfl, -⟩ <;> rfl

theorem nodup_streamLabels (song : Nat) {s : ChannelStream}
    (h : s.tokens.countP Token.isLabel ≤ 1) : (streamLabels song s).Nodup := by
  refine List.nodup_cons.2 ⟨fun hmem => ?_, nodup_tokenLabels _ _ _ _ h⟩
  rcases mem_tokenLabels hmem with ⟨target, -, heq⟩ | ⟨heq, -⟩ <;> cases heq

/-- What keeps the labels of a song apart: its streams are of different channels, and each has one
loop at most. -/
structure HasOneLoop (song : SongData) : Prop where
  channels : (song.streams.map (·.channel.shortName)).Nodup
  loops : ∀ s ∈ song.streams, s.tokens.countP Token.isLabel ≤ 1

theorem nodup_songLabels {song : SongData} (h : HasOneLoop song) : (songLabels song).Nodup :=
  nodup_flatMap_of_key (fun label => label.owner.map Prod.snd) h.channels
    (fun s hs => nodup_streamLabels _ (h.loops s hs))
    fun s _ label hlabel => by rw [owner_streamLabels label hlabel]; rfl

theorem nodup_songsLabels {songs : List SongData} (hsongs : (songs.map (·.index)).Nodup)
    (h : ∀ song ∈ songs, HasOneLoop song) : (songs.flatMap songLabels).Nodup := by
  refine nodup_flatMap_of_key (fun label => label.owner.map Prod.fst) hsongs
    (fun song hsong => nodup_songLabels (h song hsong)) fun song _ label hlabel => ?_
  obtain ⟨s, -, hlabel⟩ := List.mem_flatMap.1 hlabel
  rw [owner_streamLabels label hlabel]
  rfl

theorem nodup_entryLabels : (entryLabels l.entryTables).Nodup := by
  have hfirst : (l.entryTables.map fun t => t.1 0).Nodup :=
    (by decide : [Label.envelope 0, .groove 0, .fdsWave 0, .fdsMod 0, .n163Wave 0].Nodup)
  refine nodup_flatMap_of_key Label.first hfirst (fun t ht => ?_) fun t ht label h => ?_
  · refine List.Nodup.map ?_ List.nodup_range
    simp only [entryTables, List.mem_cons, List.not_mem_nil, or_false] at ht
    rcases ht with rfl | rfl | rfl | rfl | rfl <;> intro m n heq <;> cases heq <;> rfl
  · obtain ⟨n, -, rfl⟩ := List.mem_map.1 h
    simp only [entryTables, List.mem_cons, List.not_mem_nil, or_false] at ht
    rcases ht with rfl | rfl | rfl | rfl | rfl <;> rfl

/-- A label of the tables, and the part of the listing in which it stands. -/
theorem part_tableLabels {label : Label} (h : label ∈ l.tableLabels) :
    label.Named ∧ 2 ≤ label.part ∧ label.part ≤ 5 := by
  simp only [tableLabels, List.mem_cons] at h
  rcases h with rfl | rfl | rfl | h
  · exact ⟨trivial, by decide⟩
  · exact ⟨trivial, by decide⟩
  · exact ⟨trivial, by decide⟩
  · obtain ⟨t, ht, h⟩ := List.mem_flatMap.1 h
    obtain ⟨n, -, rfl⟩ := List.mem_map.1 h
    obtain ⟨hnamed, hpart⟩ := mem_entryTables ht n
    exact ⟨hnamed, by omega⟩

theorem part_songsLabels {songs : List SongData} {label : Label}
    (h : label ∈ songs.flatMap songLabels) : label.Named ∧ label.part = 6 := by
  obtain ⟨song, -, h⟩ := List.mem_flatMap.1 h
  obtain ⟨s, -, h⟩ := List.mem_flatMap.1 h
  have howner := owner_streamLabels label h
  cases label with
  | stream n c | streamLoop n c | streamRef n c o =>
    cases howner
    exact ⟨⟨_, rfl⟩, rfl⟩
  | _ => cases howner

theorem nodup_tableLabels : l.tableLabels.Nodup := by
  have hentries : ∀ label : Label, label.part < 5 → label ∉ entryLabels l.entryTables := by
    intro label hlt hmem
    obtain ⟨t, ht, hmem⟩ := List.mem_flatMap.1 hmem
    obtain ⟨n, -, rfl⟩ := List.mem_map.1 hmem
    rw [(mem_entryTables ht n).2] at hlt
    exact Nat.lt_irrefl _ hlt
  have h : (([.instruments, .extendedInstruments, .sampleTable] : List Label) ++
      entryLabels l.entryTables).Nodup := by
    refine List.nodup_append.2 ⟨by decide, nodup_entryLabels, fun x hx y hy heq => ?_⟩
    refine hentries x ?_ (heq ▸ hy)
    simp only [List.mem_cons, List.not_mem_nil, or_false] at hx
    rcases hx with rfl | rfl | rfl <;> decide
  exact h

/-- The labels of a layout, and the parts of the listing in which they stand. -/
theorem named_labels {label : Label} (h : label ∈ l.labels) : label.Named := by
  simp only [labels, musicLabels, List.mem_append, List.mem_cons, List.mem_map] at h
  rcases h with (rfl | ⟨song, -, rfl⟩ | h | h) | ⟨n, -, rfl⟩
  · trivial
  · trivial
  · exact (part_tableLabels h).1
  · exact (part_songsLabels h).1
  · trivial

/-- **The labels of a layout differ if its songs do.** -/
theorem nodup_labels (hsongs : (l.songs.map (·.index)).Nodup)
    (h : ∀ song ∈ l.songs, HasOneLoop song) : l.labels.Nodup := by
  have hrecords : (l.songs.map fun song => Label.song song.index).Nodup := by
    have hmap := hsongs.map (f := Label.song) fun m n heq => Label.song.inj heq
    rwa [List.map_map] at hmap
  have hsamples : ((List.range l.project.samples.length).map Label.sample).Nodup :=
    List.nodup_range.map fun m n heq => Label.sample.inj heq
  have htables : (l.tableLabels ++ l.songs.flatMap songLabels).Nodup := by
    refine nodup_append_of_part nodup_tableLabels (nodup_songsLabels hsongs h) fun x hx y hy => ?_
    have hle := (part_tableLabels hx).2.2
    rw [(part_songsLabels hy).2]
    omega
  have hbehind : ∀ y ∈ l.tableLabels ++ l.songs.flatMap songLabels, 2 ≤ y.part ∧ y.part ≤ 6 := by
    intro y hy
    rcases List.mem_append.1 hy with hy | hy
    · obtain ⟨-, hle, hge⟩ := part_tableLabels hy
      exact ⟨hle, by omega⟩
    · rw [(part_songsLabels hy).2]
      decide
  have hsongLabels : ∀ x ∈ l.songs.map fun song => Label.song song.index, x.part = 1 := by
    intro x hx
    obtain ⟨song, -, rfl⟩ := List.mem_map.1 hx
    rfl
  have hmusic : l.musicLabels.Nodup := by
    refine List.nodup_cons.2 ⟨fun hmem => ?_, nodup_append_of_part hrecords htables ?_⟩
    · rcases List.mem_append.1 hmem with hmem | hmem
      · cases hsongLabels _ hmem
      · exact absurd (hbehind _ hmem).1 (by decide)
    · intro x hx y hy
      have hle := (hbehind y hy).1
      rw [hsongLabels x hx]
      omega
  refine nodup_append_of_part hmusic hsamples fun x hx y hy => ?_
  obtain ⟨n, -, rfl⟩ := List.mem_map.1 hy
  have hle : x.part ≤ 6 := by
    rcases List.mem_cons.1 hx with rfl | hx
    · decide
    · rcases List.mem_append.1 hx with hx | hx
      · rw [hsongLabels x hx]
        decide
      · exact (hbehind x hx).2
  exact Nat.lt_succ_of_le hle

/-- **The lines of a layout define every label once just if no song is laid out twice.** -/
theorem nodup_labelNames {lines : List Line} (h : l.lines = .ok lines)
    (hloops : ∀ song ∈ l.songs, ∀ s ∈ song.streams, l.MarksLoop song.index s)
    (hone : ∀ song ∈ l.songs, HasOneLoop song) :
    (Image.labelNames lines).Nodup ↔ (l.songs.map (·.index)).Nodup := by
  rw [labelNames_eq h hloops]
  constructor
  · intro hnames
    have hmusic := (List.nodup_append.1 (List.Nodup.of_map _ hnames)).1
    have hrecords := (List.nodup_append.1 (List.nodup_cons.1 hmusic).2).1
    have hmap : (l.songs.map fun song => Label.song song.index) =
        (l.songs.map (·.index)).map Label.song := by rw [List.map_map]; rfl
    rw [hmap] at hrecords
    exact List.Nodup.of_map _ hrecords
  · intro hsongs
    exact (nodup_labels hsongs hone).map_on fun x hx y hy heq =>
      Label.text_inj (named_labels hx) (named_labels hy) heq

end Layout

/-! ## The labels of a compile -/

namespace Compressor

/-- Compression adds no label tokens. -/
theorem Packs.countP_isLabel_le {k : Kernel} {opcode : UInt8} {stream source : List Token}
    (h : Packs k opcode stream source) :
    stream.countP Token.isLabel ≤ source.countP Token.isLabel := by
  obtain ⟨parts, rfl, rfl, -⟩ := h
  induction parts with
  | nil => exact Nat.le_refl _
  | cons part parts ih =>
    rw [tokensOf_cons, sourceOf_cons, List.countP_append, List.countP_append]
    refine Nat.add_le_add ?_ ih
    cases part with
    | literal ts => exact Nat.le_refl _
    | reference count target passage => exact Nat.zero_le _

end Compressor

namespace Compile

variable {o : Options} {p : Project}

/-- **The streams of a compile mark their own loops**, each no more than one, and those of a song
are of different channels. -/
theorem generate_loops {g : Generated} (h : generate o p = .ok g) :
    ∀ song ∈ (packedLayout o p g).songs, Layout.HasOneLoop song ∧
      ∀ s ∈ song.streams, (packedLayout o p g).MarksLoop song.index s := by
  obtain ⟨-, arpeggios, t, -, hall⟩ := generate_ok h
  obtain ⟨opcode, hk⟩ := o.kernel.opcode_reference
  intro song hsong
  obtain ⟨data, hdata, rfl⟩ := List.mem_map.1 hsong
  obtain ⟨source, patches, -, -, -, -, hgenerates⟩ := (hall data hdata).streams
  -- both facts hold of the stream that was generated, and packing keeps them
  have hpacked : ∀ s ∈ (packed o data).streams, s.tokens.countP Token.isLabel ≤ 1 ∧
      (packedLayout o p g).MarksLoop data.index s := by
    intro s hs
    obtain ⟨stream, hstream, rfl⟩ := exists_of_mem_packed hs
    obtain ⟨u, u', hgenerate, -, hto⟩ := hgenerates stream hstream
    have hpacks := Compressor.apply_packs hk (Stream.generate_playable hgenerate).complete
      o.compression
    refine ⟨Nat.le_trans hpacks.countP_isLabel_le ?_, fun id hid => ?_⟩
    · rw [Stream.generate_labelCount hgenerate]
      split <;> decide
    · exact hto.name? (Stream.generate_labels hgenerate (hpacks.label_mem hid))
  refine ⟨⟨?_, fun s hs => (hpacked s hs).1⟩, fun s hs => (hpacked s hs).2⟩
  have hchannels : (packed o data).streams.map (·.channel.shortName) =
      p.channels.map Channel.shortName := by
    rw [← (hall data hdata).channels]
    simp [packed, packSong, packStream]
  rw [hchannels]
  exact nodup_shortNames p

/-- The lines of a compile define every label once just if no song was selected twice. -/
theorem generate_labelNames {g : Generated} {lines : List Line} (hg : generate o p = .ok g)
    (hlines : (packedLayout o p g).lines = .ok lines) :
    (Image.labelNames lines).Nodup ↔ (g.songs.map (·.index)).Nodup := by
  have hloops := generate_loops hg
  have hnodup := Layout.nodup_labelNames hlines (fun song hsong => (hloops song hsong).2)
    fun song hsong => (hloops song hsong).1
  have hsongs : (packedLayout o p g).songs.map (·.index) = g.songs.map (·.index) := by
    rw [show (packedLayout o p g).songs = g.songs.map (packed o) from rfl, List.map_map]
    rfl
  rwa [hsongs] at hnodup

/-- **Every label is defined once, unless a song was selected twice.** The lines that the text and
the image of a compile come from have no two labels of one name just if the selection has no song
twice, whatever the compression. -/
theorem compile_labels {score : Score} (h : compile o p = .ok score) :
    ∃ g selected lines, generate o p = .ok g ∧ selectedSongs o p = .ok selected ∧
      (packedLayout o p g).lines = .ok lines ∧ score.text = Listing.render o.dialect lines ∧
      Image.assemble lines o.dataBase = .ok score.image ∧
      ((Image.labelNames lines).Nodup ↔ selected.Nodup) := by
  obtain ⟨g, lines, hg, hlines, himage, htext, -⟩ := compile_score h
  exact ⟨g, _, lines, hg, (generate_ok hg).1, hlines, htext, himage,
    generate_labelNames hg hlines⟩

/-- The short tune, selected once, has every label once. -/
theorem compile_labels_shortTune : ∃ score g lines, compile {} shortTune = .ok score ∧
    generate {} shortTune = .ok g ∧ (packedLayout {} shortTune g).lines = .ok lines ∧
    score.text = Listing.render .ca65 lines ∧ (Image.labelNames lines).Nodup := by
  obtain ⟨g, hg, hassembles⟩ : ∃ g, generate {} shortTune = .ok g ∧
      assembles (packedLayout {} shortTune g) = true :=
    exists_generated rfl (by decide +kernel)
  obtain ⟨score, hscore⟩ := compile_succeeds hg hassembles
  obtain ⟨g, selected, lines, hg, hselected, hlines, htext, -, hnodup⟩ := compile_labels hscore
  obtain rfl : [0] = selected := Except.ok.inj hselected
  exact ⟨score, g, lines, hscore, hg, hlines, htext, hnodup.2 (by decide)⟩

/-- The short tune, selected twice, is a text that defines a label twice. -/
theorem not_nodup_labels_shortTuneTwice : ∃ score g lines,
    compile shortTuneTwice shortTune = .ok score ∧ generate shortTuneTwice shortTune = .ok g ∧
    (packedLayout shortTuneTwice shortTune g).lines = .ok lines ∧
    score.text = Listing.render .ca65 lines ∧ ¬ (Image.labelNames lines).Nodup := by
  obtain ⟨g, hg, hassembles⟩ := generate_shortTune
  obtain ⟨score, hscore⟩ := compile_succeeds hg hassembles
  obtain ⟨g, lines, hg, hlines, -, htext, -⟩ := compile_score hscore
  have hselected : [0, 0] = g.songs.map (·.index) := Except.ok.inj (generate_ok hg).1
  refine ⟨score, g, lines, hscore, hg, hlines, htext, ?_⟩
  rw [generate_labelNames hg hlines, ← hselected]
  decide

end Compile

end Chiptune
