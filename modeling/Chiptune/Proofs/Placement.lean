import Chiptune.Layout
import Chiptune.Proofs.Assembly
import Chiptune.Proofs.LabelNames
import Mathlib.Data.List.Forall2

/-!
# Where things are laid out

The music is the header, the records of the songs, tables and the streams of the songs, in this
order (`Layout.lines_ok`). A song, a stream and a target of a reference each have a label of their
own.
-/

set_option autoImplicit false

namespace Chiptune

namespace Listing

theorem flatten_chunks {α : Type} (n : Nat) (xs : List α) : (chunks n xs).flatten = xs := by
  fun_induction chunks n xs with
  | case1 => rfl
  | case2 x rest ih => simp [ih]

/-- No chunk is longer than it may be. -/
theorem length_le_of_mem_chunks {α : Type} {n : Nat} {xs chunk : List α}
    (h : chunk ∈ chunks n xs) : chunk.length ≤ n + 1 := by
  fun_induction chunks n xs with
  | case1 => cases h
  | case2 x rest ih =>
    rcases List.mem_cons.1 h with rfl | h
    · rw [List.length_cons]
      exact Nat.succ_le_succ (List.length_take_le n rest)
    · exact ih h

theorem isShort_bytes {data : List UInt8} {line : Line} (h : line ∈ bytes data) :
    line.IsShort := by
  obtain ⟨chunk, hchunk, rfl⟩ := List.mem_map.1 h
  refine Line.isShort_of_le ?_
  rw [Line.items, Image.sizeOf_bytes]
  exact length_le_of_mem_chunks hchunk

theorem isShort_words {data : List Word} {line : Line} (h : line ∈ words data) :
    line.IsShort := by
  obtain ⟨chunk, hchunk, rfl⟩ := List.mem_map.1 h
  refine Line.isShort_of_le ?_
  have hsize : Image.sizeOf (chunk.map .word) = 2 * chunk.length := Image.sizeOf_words id chunk
  rw [Line.items, hsize]
  exact Nat.mul_le_mul_left 2 (length_le_of_mem_chunks hchunk)

theorem items_bytes (data : List UInt8) : itemsOf (bytes data) = data.map .byte := by
  have h : itemsOf (bytes data) = ((chunks (bytesPerLine - 1) data).flatten).map .byte := by
    rw [itemsOf, bytes, List.flatMap_map, List.map_flatten, ← List.flatMap_def]
    rfl
  rw [h, flatten_chunks]

theorem items_words (data : List Word) : itemsOf (words data) = data.map .word := by
  have h : itemsOf (words data) = ((chunks (wordsPerLine - 1) data).flatten).map .word := by
    rw [itemsOf, words, List.flatMap_map, List.map_flatten, ← List.flatMap_def]
    rfl
  rw [h, flatten_chunks]

end Listing

@[simp]
theorem itemsOf_nil : itemsOf [] = [] := rfl

@[simp]
theorem itemsOf_cons (line : Line) (lines : List Line) :
    itemsOf (line :: lines) = line.items ++ itemsOf lines :=
  List.flatMap_cons

@[simp]
theorem itemsOf_append (lines more : List Line) :
    itemsOf (lines ++ more) = itemsOf lines ++ itemsOf more :=
  List.flatMap_append

/-- The line is a short one of the music, and the text of a label with a property if it is a
label. -/
def Line.Defines (stem : String) (P : Label → Prop) : Line → Prop
  | .label name => ∃ label : Label, label.Named ∧ P label ∧ name = label.text stem
  | .segment .. | .align _ => False
  | line => line.IsShort

/-- Every line is a short one of the music, and every label among them has a property. -/
def DefinesOnly (stem : String) (P : Label → Prop) (lines : List Line) : Prop :=
  ∀ line ∈ lines, line.Defines stem P

namespace DefinesOnly

variable {stem : String} {P : Label → Prop}

theorem append {lines more : List Line} (h : DefinesOnly stem P lines)
    (h' : DefinesOnly stem P more) : DefinesOnly stem P (lines ++ more) := by
  intro line hline
  rcases List.mem_append.1 hline with hline | hline
  · exact h line hline
  · exact h' line hline

theorem cons {line : Line} {lines : List Line} (h : line.Defines stem P)
    (h' : DefinesOnly stem P lines) : DefinesOnly stem P (line :: lines) := by
  intro l hl
  rcases List.mem_cons.1 hl with rfl | hl
  · exact h
  · exact h' l hl

theorem nil : DefinesOnly stem P [] := fun _ h => absurd h List.not_mem_nil

theorem bytes (data : List UInt8) : DefinesOnly stem P (Listing.bytes data) := by
  intro line hline
  have hshort := Listing.isShort_bytes hline
  obtain ⟨chunk, -, rfl⟩ := List.mem_map.1 hline
  exact hshort

theorem words (data : List Word) : DefinesOnly stem P (Listing.words data) := by
  intro line hline
  have hshort := Listing.isShort_words hline
  obtain ⟨chunk, -, rfl⟩ := List.mem_map.1 hline
  exact hshort

theorem flatMap {α : Type} {xs : List α} {f : α → List Line}
    (h : ∀ x ∈ xs, DefinesOnly stem P (f x)) : DefinesOnly stem P (xs.flatMap f) := by
  intro line hline
  obtain ⟨x, hx, hline⟩ := List.mem_flatMap.1 hline
  exact h x hx line hline

theorem flatten {xs : List (List Line)} (h : ∀ lines ∈ xs, DefinesOnly stem P lines) :
    DefinesOnly stem P xs.flatten := by
  intro line hline
  obtain ⟨lines, hl, hline⟩ := List.mem_flatten.1 hline
  exact h lines hl line hline

theorem isPlain {lines : List Line} (h : DefinesOnly stem P lines) :
    ∀ line ∈ lines, line.IsPlain := by
  intro line hline
  have hd := h line hline
  cases line <;> first | exact hd.elim | exact hd | exact Line.isShort_label _

end DefinesOnly

/-- Every label among the items has a property. -/
def LabelsOnly (stem : String) (P : Label → Prop) (items : List Item) : Prop :=
  ∀ name, .label name ∈ items → ∃ label : Label, label.Named ∧ P label ∧ name = label.text stem

namespace LabelsOnly

variable {stem : String} {P : Label → Prop}

theorem append {items more : List Item} (h : LabelsOnly stem P items)
    (h' : LabelsOnly stem P more) : LabelsOnly stem P (items ++ more) := by
  intro name hname
  rcases List.mem_append.1 hname with hname | hname
  · exact h name hname
  · exact h' name hname

theorem flatMap {α : Type} {xs : List α} {f : α → List Item}
    (h : ∀ x ∈ xs, LabelsOnly stem P (f x)) : LabelsOnly stem P (xs.flatMap f) := by
  intro name hname
  obtain ⟨x, hx, hname⟩ := List.mem_flatMap.1 hname
  exact h x hx name hname

theorem mono {Q : Label → Prop} {items : List Item} (h : LabelsOnly stem P items)
    (hPQ : ∀ label, P label → Q label) : LabelsOnly stem Q items := by
  intro name hname
  obtain ⟨label, hl, hP, htext⟩ := h name hname
  exact ⟨label, hl, hPQ label hP, htext⟩

/-- A label without the property is not among the items. -/
theorem notMem {items : List Item} (h : LabelsOnly stem P items) {label : Label}
    (hl : label.Named) (hP : ¬ P label) : .label (label.text stem) ∉ items := by
  intro hmem
  obtain ⟨label', hl', hP', htext⟩ := h _ hmem
  exact hP (Label.text_inj hl hl' htext ▸ hP')

end LabelsOnly

theorem DefinesOnly.labels {stem : String} {P : Label → Prop} {lines : List Line}
    (h : DefinesOnly stem P lines) : LabelsOnly stem P (itemsOf lines) := by
  intro name hname
  obtain ⟨line, hline, hitem⟩ := List.mem_flatMap.1 hname
  have hd := h line hline
  cases line with
  | label name' =>
    cases List.mem_singleton.1 hitem
    exact hd
  | bytes data => simp [Line.items] at hitem
  | words data => simp [Line.items] at hitem
  | _ => cases hitem

/-! ## Tables -/

/-- Label of the header, of a table or of an entry of one. -/
def Label.IsTable : Label → Prop
  | song _ | stream .. | streamLoop .. | streamRef .. => False
  | _ => True

namespace Layout

variable (l : Layout)

theorem defines_label {P : Label → Prop} {label : Label} (hl : label.Named) (hP : P label) :
    (l.labelLine label).Defines l.stem P :=
  ⟨label, hl, hP, rfl⟩

theorem defines_recordLines {P : Label → Prop} {record : Instrument → InstrumentRecord → List Line}
    {indices : List Nat} {lines : List Line} (hrecord : ∀ i r, DefinesOnly l.stem P (record i r))
    (h : l.recordLines record indices = .ok lines) : DefinesOnly l.stem P lines := by
  obtain ⟨parts, hparts, h⟩ := bind_ok h
  cases h
  refine .flatten fun part hpart => ?_
  obtain ⟨index, -, hindex⟩ := exists_of_mapM_ok hparts hpart
  split at hindex
  · cases hindex
    exact hrecord _ _
  · cases hindex
    exact .nil
  · cases hindex

theorem defines_primaryRecord {P : Label → Prop} (i : Instrument) (r : InstrumentRecord) :
    DefinesOnly l.stem P (l.primaryRecord i r) :=
  .append (.append (.cons (Line.isShort_comment _) .nil) (.words _)) (.bytes _)

theorem defines_extendedRecord {P : Label → Prop} (i : Instrument) (r : InstrumentRecord) :
    DefinesOnly l.stem P (l.extendedRecord i r) := by
  unfold extendedRecord
  refine .append (.cons (Line.isShort_comment _) .nil) ?_
  split
  · exact .append (.append (.words _) (.bytes _)) (.bytes _)
  · exact .append (.append (.words _) (.words _)) (.bytes _)
  · exact .append (.words _) (.bytes _)
  · exact .append (.words _) (.bytes _)

theorem defines_instrumentTables {lines : List Line} (h : l.instrumentTables = .ok lines) :
    DefinesOnly l.stem Label.IsTable lines := by
  obtain ⟨primary, hprimary, h⟩ := bind_ok h
  obtain ⟨extended, hextended, h⟩ := bind_ok h
  cases h
  have htable : ∀ label : Label, label.Named → label.IsTable →
      DefinesOnly l.stem Label.IsTable [.blank, l.labelLine label] :=
    fun label hl hP => .cons Line.isShort_blank (.cons (l.defines_label hl hP) .nil)
  exact .append (.append (.append (htable .instruments trivial trivial)
    (l.defines_recordLines l.defines_primaryRecord hprimary))
    (htable .extendedInstruments trivial trivial))
    (l.defines_recordLines l.defines_extendedRecord hextended)

theorem defines_sampleTable {lines : List Line} (h : l.sampleTable = .ok lines) :
    DefinesOnly l.stem Label.IsTable lines := by
  obtain ⟨parts, hparts, h⟩ := bind_ok h
  cases h
  refine .append (.cons Line.isShort_blank (.cons (l.defines_label trivial trivial) .nil))
    (.flatten ?_)
  intro part hpart
  obtain ⟨m, -, hm⟩ := exists_of_mapM_ok hparts hpart
  split at hm
  · cases hm
    exact .nil
  · split at hm
    · cases hm
    · cases hm
      exact .bytes _

theorem defines_entries (label : Nat → Label) (hl : ∀ n, (label n).Named ∧ (label n).IsTable)
    (table : UniqueTable) : DefinesOnly l.stem Label.IsTable (l.entries label table) :=
  .flatMap fun entry _ => .cons (l.defines_label (hl entry.2).1 (hl entry.2).2) (.bytes _)

theorem defines_curves : DefinesOnly l.stem Label.IsTable l.curves := by
  have htitle : ∀ title : String,
      DefinesOnly l.stem Label.IsTable [.blank, .comment title] :=
    fun _ => .cons Line.isShort_blank (.cons (Line.isShort_comment _) .nil)
  unfold curves
  refine .append (.append (.append (.append (.append (htitle _) ?_) ?_) ?_) ?_) ?_
  · exact l.defines_entries .envelope (fun _ => ⟨trivial, trivial⟩) _
  · split
    · exact .nil
    · exact .append (htitle _) (l.defines_entries .groove (fun _ => ⟨trivial, trivial⟩) _)
  · exact l.defines_entries .fdsWave (fun _ => ⟨trivial, trivial⟩) _
  · exact l.defines_entries .fdsMod (fun _ => ⟨trivial, trivial⟩) _
  · exact l.defines_entries .n163Wave (fun _ => ⟨trivial, trivial⟩) _

theorem isSamples_samples : Image.Draft.IsSamples l.samples := by
  unfold samples
  split
  · exact .inl rfl
  · refine .inr ⟨_, _, rfl, ?_⟩
    intro line hline
    obtain ⟨⟨s, index⟩, -, hline⟩ := List.mem_flatMap.1 hline
    rcases List.mem_append.1 hline with hline | hline
    · rcases List.mem_cons.1 hline with rfl | hline
      · rfl
      · rw [List.mem_singleton.1 hline]
        rfl
    · obtain ⟨chunk, -, rfl⟩ := List.mem_map.1 hline
      rfl

/-- The labels of the samples are of no other kind. -/
theorem notMem_samples {label : Label} (hl : label.Named) (hne : ∀ n, label ≠ .sample n) :
    .label (label.text l.stem) ∉ l.samples := by
  unfold samples
  split
  · simp
  · intro hmem
    rcases List.mem_append.1 hmem with hmem | hmem
    · simp at hmem
    obtain ⟨⟨s, index⟩, -, hmem⟩ := List.mem_flatMap.1 hmem
    rcases List.mem_append.1 hmem with hmem | hmem
    · simp only [labelLine, List.mem_cons, reduceCtorEq, Line.label.injEq, List.not_mem_nil,
        or_false, false_or] at hmem
      exact hne index (Label.text_inj hl trivial hmem)
    · obtain ⟨chunk, -, hchunk⟩ := List.mem_map.1 hmem
      cases hchunk

/-! ## Songs and streams -/

/-- Item of a token. -/
def tokenItem (song : Nat) (channel : String) : Token → Item
  | .byte b | .opcode b | .note b => .byte b
  | .label id => .label ((l.tables.symbols.name? id).getD "")
  | .address (.symbol id) => .word (.label ((l.tables.symbols.name? id).getD ""))
  | .address (.offset target) => .word (l.labelWord (.streamRef song channel target.toNat))

/-- Label of a token that a reference names. -/
def targetItems (song : Nat) (channel : String) (targets : List Nat) (offset : Nat) : List Item :=
  if targets.contains offset then [.label ((Label.streamRef song channel offset).text l.stem)]
  else []

/-- Items of the tokens of a stream from an offset on, with the labels of its targets. -/
def tokenItems (song : Nat) (channel : String) (targets : List Nat) :
    Nat → List Token → List Item
  | _, [] => []
  | offset, token :: rest =>
    l.targetItems song channel targets offset ++
      l.tokenItem song channel token :: tokenItems song channel targets (offset + 1) rest

/-- The name that a token uses, if any, is in the tables. -/
def Knows (token : Token) : Prop :=
  ∀ id, token = .label id ∨ token = .address (.symbol id) →
    (l.tables.symbols.name? id).isSome = true

theorem isPlain_bytes (data : List UInt8) : ∀ line ∈ Listing.bytes data, line.IsPlain := by
  have hdefines : DefinesOnly "" (fun _ => True) (Listing.bytes data) := .bytes data
  exact hdefines.isPlain

theorem isPlain_words (data : List Word) : ∀ line ∈ Listing.words data, line.IsPlain := by
  have hdefines : DefinesOnly "" (fun _ => True) (Listing.words data) := .words data
  exact hdefines.isPlain

/-- What a token adds to the lines of a stream: a byte that is not written yet, or a line of its own
behind the bytes that were not written; and before both, the label of a target. -/
theorem streamLines_cons {song : Nat} {channel : String} {targets : List Nat} {offset : Nat}
    {reversed : List UInt8} {token : Token} {rest : List Token} {lines : List Line}
    (h : l.streamLines song channel targets offset reversed (token :: rest) = .ok lines) :
    ∃ (lead : List Line) (pending : List UInt8), (∀ line ∈ lead, line.IsPlain) ∧
      itemsOf lead ++ pending.reverse.map .byte =
        reversed.reverse.map .byte ++ l.targetItems song channel targets offset ∧
      l.Knows token ∧
      ((∃ b others, l.tokenItem song channel token = .byte b ∧ lines = lead ++ others ∧
          l.streamLines song channel targets (offset + 1) (b :: pending) rest = .ok others) ∨
        ∃ line others, line.IsPlain ∧ line.items = [l.tokenItem song channel token] ∧
          lines = lead ++ (flushBytes pending ++ line :: others) ∧
          l.streamLines song channel targets (offset + 1) [] rest = .ok others) := by
  rw [streamLines] at h
  generalize hp : (if targets.contains offset = true then
    (flushBytes reversed ++ [l.labelLine (.streamRef song channel offset)], []) else
    (([], reversed) : List Line × List UInt8)) = p at h
  obtain ⟨lead, pending⟩ := p
  refine ⟨lead, pending, ?_, ?_, ?_⟩
  · split at hp
    · cases hp
      intro line hline
      rcases List.mem_append.1 hline with hline | hline
      · exact isPlain_bytes _ line hline
      · rw [List.mem_singleton.1 hline]
        exact Line.isShort_label _
    · cases hp
      simp
  · unfold targetItems
    split at hp
    · rename_i htarget
      cases hp
      rw [if_pos htarget]
      simp [flushBytes, Listing.items_bytes, labelLine, Line.items]
    · rename_i htarget
      cases hp
      rw [if_neg htarget]
      simp
  cases token with
  | byte b =>
    obtain ⟨others, hothers, h⟩ := bind_ok h
    cases h
    exact ⟨by simp [Knows], .inl ⟨b, others, rfl, rfl, hothers⟩⟩
  | opcode b =>
    obtain ⟨others, hothers, h⟩ := bind_ok h
    cases h
    exact ⟨by simp [Knows], .inl ⟨b, others, rfl, rfl, hothers⟩⟩
  | note b =>
    obtain ⟨others, hothers, h⟩ := bind_ok h
    cases h
    exact ⟨by simp [Knows], .inl ⟨b, others, rfl, rfl, hothers⟩⟩
  | label id =>
    simp only at h
    split at h
    · cases h
    rename_i name hname
    obtain ⟨others, hothers, h⟩ := bind_ok h
    cases h
    refine ⟨by simp [Knows, hname],
      .inr ⟨.label name, others, Line.isShort_label _, ?_, by simp, hothers⟩⟩
    simp [Line.items, tokenItem, hname]
  | address target =>
    cases target with
    | symbol id =>
      simp only at h
      split at h
      · cases h
      rename_i name hname
      obtain ⟨others, hothers, h⟩ := bind_ok h
      cases h
      refine ⟨by simp [Knows, hname],
        .inr ⟨.words [.label name], others, Line.isShort_word _, ?_, by simp, hothers⟩⟩
      simp [Line.items, tokenItem, hname]
    | offset target =>
      obtain ⟨others, hothers, h⟩ := bind_ok h
      cases h
      exact ⟨by simp [Knows], .inr ⟨.words [l.labelWord (.streamRef song channel target.toNat)],
        others, Line.isShort_word _, rfl, by simp, hothers⟩⟩

/-- **The lines of a stream are those of its tokens.** -/
theorem streamLines_ok {song : Nat} {channel : String} {targets : List Nat} {offset : Nat}
    {reversed : List UInt8} {tokens : List Token} {lines : List Line}
    (h : l.streamLines song channel targets offset reversed tokens = .ok lines) :
    (∀ line ∈ lines, line.IsPlain) ∧
      itemsOf lines =
        reversed.reverse.map .byte ++ l.tokenItems song channel targets offset tokens ∧
      ∀ token ∈ tokens, l.Knows token := by
  induction tokens generalizing offset reversed lines with
  | nil =>
    cases h
    exact ⟨isPlain_bytes _, by simp [flushBytes, Listing.items_bytes, tokenItems], by simp⟩
  | cons token rest ih =>
    obtain ⟨lead, pending, hlead, hitems, hknows, hcase⟩ := l.streamLines_cons h
    rcases hcase with ⟨b, others, hb, rfl, hothers⟩ | ⟨line, others, hline, hitem, rfl, hothers⟩
    · obtain ⟨hplain, hrest, hknown⟩ := ih hothers
      refine ⟨List.forall_mem_append.2 ⟨hlead, hplain⟩, ?_,
        List.forall_mem_cons.2 ⟨hknows, hknown⟩⟩
      rw [itemsOf_append, hrest, List.reverse_cons, List.map_append, ← List.append_assoc,
        ← List.append_assoc, hitems, tokenItems, hb]
      simp
    · obtain ⟨hplain, hrest, hknown⟩ := ih hothers
      refine ⟨List.forall_mem_append.2 ⟨hlead, List.forall_mem_append.2 ⟨isPlain_bytes _,
        List.forall_mem_cons.2 ⟨hline, hplain⟩⟩⟩, ?_, List.forall_mem_cons.2 ⟨hknows, hknown⟩⟩
      rw [itemsOf_append, itemsOf_append, itemsOf_cons, hrest, hitem, flushBytes,
        Listing.items_bytes, ← List.append_assoc, hitems, tokenItems]
      simp

/-- Items of a stream. -/
def streamItems (song : Nat) (s : ChannelStream) : List Item :=
  .label ((Label.stream song s.channel.shortName).text l.stem) ::
    l.tokenItems song s.channel.shortName (targets s.tokens) 0 s.tokens

/-- Items of the streams of a song. -/
def songItems (song : SongData) : List Item := song.streams.flatMap (l.streamItems song.index)

/-- Items of a song record. -/
def recordItems (song : SongData) : List Item :=
  .label ((Label.song song.index).text l.stem) ::
    ((song.streams.map fun s => .word (l.labelWord (.stream song.index s.channel.shortName))) ++
      [.byte song.speed, .word (match song.groove with
        | some groove => l.labelWord (.groove groove)
        | none => .value song.tempo)])

/-- Items of the header before the words of the songs. -/
def headerItems : List Item :=
  [.label (Label.header.text l.stem), .byte (UInt8.ofNat l.songs.length),
    .byte l.project.expansions.mask, .byte (machineByte l.machine), .byte l.n163Byte,
    .byte (UInt8.ofNat l.channels.length), .byte (tempoModeByte l.project.tempoMode),
    .word (l.labelWord .instruments), .word (l.labelWord .extendedInstruments),
    .word (l.labelWord .sampleTable)]

theorem items_header :
    itemsOf l.header =
      l.headerItems ++ l.songs.map fun song => .word (l.labelWord (.song song.index)) := by
  simp [header, headerItems, Listing.items_bytes, Listing.items_words, labelLine, Line.items]

theorem items_songRecord (song : SongData) : itemsOf (l.songRecord song) = l.recordItems song := by
  have hwords : itemsOf (Listing.words (song.streams.map fun s =>
      l.labelWord (.stream song.index s.channel.shortName))) =
      song.streams.map fun s => .word (l.labelWord (.stream song.index s.channel.shortName)) := by
    rw [Listing.items_words, List.map_map]
    rfl
  rw [songRecord, itemsOf_append, itemsOf_append, hwords]
  rfl

theorem isPlain_header : ∀ line ∈ l.header, line.IsPlain := by
  have hlabel : ∀ line ∈ [l.labelLine .header], line.IsPlain := by
    simp [labelLine, Line.IsPlain]
  exact List.forall_mem_append.2 ⟨List.forall_mem_append.2 ⟨List.forall_mem_append.2
    ⟨hlabel, isPlain_bytes _⟩, isPlain_words _⟩, isPlain_words _⟩

theorem isPlain_songRecord (song : SongData) :
    ∀ line ∈ l.songRecord song, line.IsPlain := by
  refine List.forall_mem_append.2 ⟨List.forall_mem_append.2 ⟨?_, isPlain_words _⟩, ?_⟩ <;>
    simp [labelLine, Line.IsPlain]

/-- Parts that are laid out one after the other. -/
theorem parts_ok {α : Type} {f : α → Except Fault (List Line)} {items : α → List Item}
    {Q : α → Prop} {xs : List α} {parts : List (List Line)}
    (hf : ∀ x lines, f x = .ok lines →
      (∀ line ∈ lines, line.IsPlain) ∧ itemsOf lines = items x ∧ Q x)
    (h : xs.mapM f = .ok parts) :
    (∀ line ∈ parts.flatten, line.IsPlain) ∧ itemsOf parts.flatten = xs.flatMap items ∧
      ∀ x ∈ xs, Q x := by
  have hall := mapM_ok h
  clear h
  induction hall with
  | nil => exact ⟨by simp, rfl, by simp⟩
  | cons hx _ ih =>
    obtain ⟨hplain, hitems, hQ⟩ := hf _ _ hx
    obtain ⟨hplain', hitems', hQ'⟩ := ih
    refine ⟨?_, ?_, List.forall_mem_cons.2 ⟨hQ, hQ'⟩⟩
    · rw [List.flatten_cons]
      exact List.forall_mem_append.2 ⟨hplain, hplain'⟩
    · rw [List.flatten_cons, itemsOf_append, hitems, hitems', List.flatMap_cons]

theorem stream_ok {song : Nat} {s : ChannelStream} {lines : List Line}
    (h : l.stream song s = .ok lines) :
    (∀ line ∈ lines, line.IsPlain) ∧ itemsOf lines = l.streamItems song s ∧
      ∀ token ∈ s.tokens, l.Knows token := by
  obtain ⟨others, hothers, h⟩ := bind_ok h
  cases h
  obtain ⟨hplain, hitems, hknows⟩ := l.streamLines_ok hothers
  refine ⟨List.forall_mem_append.2 ⟨by simp [Line.IsPlain, labelLine], hplain⟩, ?_, hknows⟩
  rw [itemsOf_append, hitems]
  simp [streamItems, labelLine, Line.items]

theorem songStreams_ok {song : SongData} {lines : List Line} (h : l.songStreams song = .ok lines) :
    (∀ line ∈ lines, line.IsPlain) ∧ itemsOf lines = l.songItems song ∧
      ∀ s ∈ song.streams, ∀ token ∈ s.tokens, l.Knows token := by
  obtain ⟨parts, hparts, h⟩ := bind_ok h
  cases h
  exact parts_ok (fun _ _ => l.stream_ok) hparts

/-- Items of the music: header, song records, tables, streams. -/
def items (tables : List Item) : List Item :=
  l.headerItems ++
    ((l.songs.map fun song => .word (l.labelWord (.song song.index))) ++
      (l.songs.flatMap l.recordItems ++ (tables ++ l.songs.flatMap l.songItems)))

/-- The items are those of the instrument tables, the sample table and the curves. -/
def AreTables (tables : List Item) : Prop :=
  ∃ instruments mappings, l.instrumentTables = .ok instruments ∧ l.sampleTable = .ok mappings ∧
    tables = itemsOf (instruments ++ mappings ++ l.curves)

/-- **What the listing consists of.** -/
theorem lines_ok {lines : List Line} (h : l.lines = .ok lines) :
    ∃ text main tables, lines = .comment text :: .segment .music l.dataBase :: (main ++ l.samples) ∧
      (∀ line ∈ main, line.IsPlain) ∧ itemsOf main = l.items tables ∧
      l.AreTables tables ∧ LabelsOnly l.stem Label.IsTable tables ∧
      ∀ song ∈ l.songs, ∀ s ∈ song.streams, ∀ token ∈ s.tokens, l.Knows token := by
  obtain ⟨instruments, hinstruments, h⟩ := bind_ok h
  obtain ⟨mappings, hmappings, h⟩ := bind_ok h
  obtain ⟨streams, hstreams, h⟩ := bind_ok h
  cases h
  obtain ⟨hplain, hitems, hknows⟩ := parts_ok (fun _ _ => l.songStreams_ok) hstreams
  have htables := ((l.defines_instrumentTables hinstruments).append
    (l.defines_sampleTable hmappings)).append l.defines_curves
  have hrecords : ∀ line ∈ l.songs.flatMap l.songRecord, line.IsPlain := by
    intro line hline
    obtain ⟨song, -, hline⟩ := List.mem_flatMap.1 hline
    exact l.isPlain_songRecord song line hline
  refine ⟨l.project.name ++ " (" ++ l.kernel.name ++ " kernel)",
    l.header ++ (l.songs.flatMap l.songRecord ++
    ((instruments ++ mappings ++ l.curves) ++ streams.flatten)),
    itemsOf (instruments ++ mappings ++ l.curves), ?_, ?_, ?_,
    ⟨instruments, mappings, hinstruments, hmappings, rfl⟩, htables.labels, hknows⟩
  · simp only [List.append_assoc, List.cons_append, List.nil_append]
  · exact List.forall_mem_append.2 ⟨l.isPlain_header, List.forall_mem_append.2 ⟨hrecords,
      List.forall_mem_append.2 ⟨htables.isPlain, hplain⟩⟩⟩
  · have hflat : itemsOf (l.songs.flatMap l.songRecord) = l.songs.flatMap l.recordItems := by
      rw [itemsOf, List.flatMap_assoc]
      exact List.flatMap_congr fun song _ => l.items_songRecord song
    rw [itemsOf_append, itemsOf_append, itemsOf_append, items_header, hflat, hitems, items]
    simp only [List.append_assoc]

end Layout

end Chiptune
