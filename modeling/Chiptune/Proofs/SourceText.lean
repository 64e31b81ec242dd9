import Chiptune.Proofs.ListingCalls
import Chiptune.Proofs.Resolution

/-!
# The text of a compile

The listing of a layout begins with the name of the project in a comment. Its other lines hold
labels of the layout, values, and comments with the names of songs and instruments
(`Layout.Writes`), so that its text is read as the statements that the image is assembled from,
unless a name has a line end.

* `Layout.writes_lines`: **what a layout writes**, line by line.
* `Compile.compile_text`: **the lines behind the title can be read.**
* `Compile.compile_reads`: **text and image are of the same lines**, if no name has a line end.
* `Compile.compile_injects`: **a name with line ends writes source of its own.**
-/

set_option autoImplicit false

namespace Chiptune

/-! ## Names of labels -/

namespace Label

theorem all_digits (n : Nat) : (Nat.toDigits 10 n).all isIdentifierChar = true := by
  refine List.all_eq_true.2 fun c hc => ?_
  have hdigit := Nat.isDigit_of_mem_toDigits (by decide) (by decide) hc
  simp [isIdentifierChar, Char.isAlphanum, hdigit]

/-- **The text of a label is an identifier**, if its stem is made of their characters. -/
theorem isIdentifier_text {stem : String} (hstem : stem.toList.all isIdentifierChar = true)
    {label : Label} (h : label.Named) : IsIdentifier (label.text stem).toList := by
  have hchannel : ∀ channel : Channel, channel.shortName.toList.all isIdentifierChar = true := by
    intro channel
    cases channel <;> decide
  have hname : IsIdentifier label.name.toList := by
    rw [toList_name]
    cases label with
    | header | instruments | extendedInstruments | sampleTable => decide
    | stream n channel | streamLoop n channel | streamRef n channel =>
      obtain ⟨channel, rfl⟩ := h
      simp only [IsIdentifier, List.all_append, List.all_cons, all_digits, hchannel]
      exact ⟨by simp, by decide⟩
    | _ n =>
      simp only [IsIdentifier, List.all_append, all_digits]
      exact ⟨by simp, by decide⟩
  rw [text, String.toList_append]
  refine ⟨by simp [hname.1], ?_⟩
  rw [List.all_append, hstem, hname.2]
  rfl

end Label

namespace Layout

/-- Text of the first line. -/
def title (l : Layout) : String := l.project.name ++ " (" ++ l.kernel.name ++ " kernel)"

/-- Texts of the comments behind the first line. -/
def comments (l : Layout) : List String :=
  ["Envelopes", "Grooves"] ++ l.songs.map (fun song => "Song: " ++ song.name) ++
    l.project.instruments.map (·.name)

/-- What the lines of a layout behind the first one hold. -/
def Writes (l : Layout) : Line → Prop
  | .label name => ∃ label : Label, label.Named ∧ name = label.text l.stem
  | .bytes data => data ≠ []
  | .words data => data ≠ []
  | .comment text => text ∈ l.comments
  | .segment .. | .align _ | .blank => True

variable {l : Layout}

theorem writes_bytes (data : List UInt8) : ∀ line ∈ Listing.bytes data, l.Writes line := by
  intro line hline
  obtain ⟨chunk, hchunk, rfl⟩ := List.mem_map.1 hline
  exact Listing.chunks_ne_nil hchunk

theorem writes_words (data : List Word) : ∀ line ∈ Listing.words data, l.Writes line := by
  intro line hline
  obtain ⟨chunk, hchunk, rfl⟩ := List.mem_map.1 hline
  exact Listing.chunks_ne_nil hchunk

theorem writes_label {label : Label} (h : label.Named) : l.Writes (l.labelLine label) :=
  ⟨label, h, rfl⟩

theorem writes_header : ∀ line ∈ l.header, l.Writes line := by
  unfold header
  simp only [List.forall_mem_append, List.forall_mem_singleton]
  exact ⟨⟨⟨writes_label trivial, writes_bytes _⟩, writes_words _⟩, writes_words _⟩

theorem writes_songRecord {song : SongData} (h : song ∈ l.songs) :
    ∀ line ∈ l.songRecord song, l.Writes line := by
  have hcomment : l.Writes (.comment ("Song: " ++ song.name)) := by
    simp only [Writes, comments, List.mem_append, List.mem_map]
    exact .inl (.inr ⟨song, h, rfl⟩)
  unfold songRecord
  simp only [List.forall_mem_append, List.forall_mem_cons]
  exact ⟨⟨⟨trivial, hcomment, writes_label trivial, by simp⟩, writes_words _⟩,
    List.cons_ne_nil _ _, List.cons_ne_nil _ _, by simp⟩

theorem writes_recordLines {record : Instrument → InstrumentRecord → List Line}
    {indices : List Nat} {lines : List Line}
    (hrecord : ∀ i r, l.Writes (.comment i.name) → ∀ line ∈ record i r, l.Writes line)
    (h : l.recordLines record indices = .ok lines) : ∀ line ∈ lines, l.Writes line := by
  obtain ⟨parts, hparts, h⟩ := bind_ok h
  cases h
  intro line hline
  obtain ⟨index, -, part, hindex, hline⟩ := exists_of_mem_flatten hparts hline
  split at hindex
  · rename_i i r hi hr
    cases hindex
    refine hrecord i r ?_ line hline
    simp only [Writes, comments, List.mem_append, List.mem_map]
    exact .inr ⟨i, List.mem_of_getElem? hi, rfl⟩
  · cases hindex
    cases hline
  · cases hindex

theorem writes_primaryRecord (i : Instrument) (r : InstrumentRecord)
    (h : l.Writes (.comment i.name)) : ∀ line ∈ l.primaryRecord i r, l.Writes line := by
  unfold primaryRecord
  simp only [List.forall_mem_append, List.forall_mem_singleton]
  exact ⟨⟨h, writes_words _⟩, writes_bytes _⟩

theorem writes_extendedRecord (i : Instrument) (r : InstrumentRecord)
    (h : l.Writes (.comment i.name)) : ∀ line ∈ l.extendedRecord i r, l.Writes line := by
  unfold extendedRecord
  rw [List.forall_mem_append, List.forall_mem_singleton]
  refine ⟨h, ?_⟩
  split <;> simp only [List.forall_mem_append]
  · exact ⟨⟨writes_words _, writes_bytes _⟩, writes_bytes _⟩
  · exact ⟨⟨writes_words _, writes_words _⟩, writes_bytes _⟩
  · exact ⟨writes_words _, writes_bytes _⟩
  · exact ⟨writes_words _, writes_bytes _⟩

theorem writes_instrumentTables {lines : List Line} (h : l.instrumentTables = .ok lines) :
    ∀ line ∈ lines, l.Writes line := by
  obtain ⟨primary, hprimary, h⟩ := bind_ok h
  obtain ⟨extended, hextended, h⟩ := bind_ok h
  cases h
  simp only [List.forall_mem_append, List.forall_mem_cons]
  exact ⟨⟨⟨⟨trivial, writes_label trivial, by simp⟩,
    writes_recordLines writes_primaryRecord hprimary⟩, trivial, writes_label trivial, by simp⟩,
    writes_recordLines writes_extendedRecord hextended⟩

theorem writes_sampleTable {lines : List Line} (h : l.sampleTable = .ok lines) :
    ∀ line ∈ lines, l.Writes line := by
  obtain ⟨parts, hparts, h⟩ := bind_ok h
  cases h
  simp only [List.forall_mem_append, List.forall_mem_cons]
  refine ⟨⟨trivial, writes_label trivial, by simp⟩, fun line hline => ?_⟩
  obtain ⟨m, -, part, hm, hline⟩ := exists_of_mem_flatten hparts hline
  split at hm
  · cases hm
    cases hline
  · split at hm
    · cases hm
    · cases hm
      exact writes_bytes _ line hline

theorem writes_entries (label : Nat → Label) (hl : ∀ n, (label n).Named) (table : UniqueTable) :
    ∀ line ∈ l.entries label table, l.Writes line := by
  intro line hline
  obtain ⟨entry, -, hline⟩ := List.mem_flatMap.1 hline
  rcases List.mem_cons.1 hline with rfl | hline
  · exact writes_label (hl _)
  · exact writes_bytes _ line hline

theorem writes_curves : ∀ line ∈ l.curves, l.Writes line := by
  have htitle : ∀ title ∈ l.comments, ∀ line ∈ [.blank, .comment title], l.Writes line := by
    intro title h
    simp only [List.forall_mem_cons]
    exact ⟨trivial, h, by simp⟩
  unfold curves
  simp only [List.forall_mem_append]
  refine ⟨⟨⟨⟨⟨htitle _ (by simp [comments]), writes_entries .envelope (fun _ => trivial) _⟩, ?_⟩,
    writes_entries .fdsWave (fun _ => trivial) _⟩, writes_entries .fdsMod (fun _ => trivial) _⟩,
    writes_entries .n163Wave (fun _ => trivial) _⟩
  split
  · simp
  · simp only [List.forall_mem_append]
    exact ⟨htitle _ (by simp [comments]), writes_entries .groove (fun _ => trivial) _⟩

theorem writes_samples : ∀ line ∈ l.samples, l.Writes line := by
  unfold samples
  split
  · simp
  · simp only [List.forall_mem_append, List.forall_mem_cons]
    refine ⟨⟨trivial, trivial, by simp⟩, fun line hline => ?_⟩
    obtain ⟨⟨s, index⟩, -, hline⟩ := List.mem_flatMap.1 hline
    simp only [List.cons_append, List.nil_append, List.mem_cons] at hline
    rcases hline with rfl | rfl | hline
    · trivial
    · exact writes_label trivial
    · exact writes_bytes _ line hline

theorem writes_flush (reversed : List UInt8) : ∀ line ∈ flushBytes reversed, l.Writes line :=
  writes_bytes _

/-- The label of a target stands behind the bytes that were collected before it. -/
theorem writes_lead (song : Nat) (channel : Channel) (targets : List Nat) (offset : Nat)
    (reversed : List UInt8) : ∀ line ∈ (if targets.contains offset = true then
      (flushBytes reversed ++ [l.labelLine (.streamRef song channel.shortName offset)],
        ([] : List UInt8)) else ([], reversed)).1, l.Writes line := by
  split
  · simp only [List.forall_mem_append, List.forall_mem_singleton]
    exact ⟨writes_flush _, writes_label ⟨channel, rfl⟩⟩
  · simp

/-- **What a stream writes**: its label tokens mark loops. -/
theorem writes_streamLines {song : Nat} {channel : Channel} {targets : List Nat} {offset : Nat}
    {reversed : List UInt8} {tokens : List Token} (hmarks : l.MarksLoops tokens) {lines : List Line}
    (h : l.streamLines song channel.shortName targets offset reversed tokens = .ok lines) :
    ∀ line ∈ lines, l.Writes line := by
  induction tokens generalizing offset reversed lines with
  | nil =>
    cases h
    exact writes_bytes _
  | cons token rest ih =>
    have hrest : ∀ {bytes : List UInt8} {others : List Line},
        l.streamLines song channel.shortName targets (offset + 1) bytes rest = .ok others →
        ∀ line ∈ others, l.Writes line :=
      ih fun id hid => hmarks id (List.mem_cons_of_mem _ hid)
    have hlead := writes_lead (l := l) song channel targets offset reversed
    rw [streamLines] at h
    generalize (if targets.contains offset = true then _ else _ : List Line × List UInt8) = split
      at h hlead
    obtain ⟨lead, pending⟩ := split
    cases token with
    | byte b | opcode b | note b =>
      obtain ⟨others, hothers, h⟩ := bind_ok h
      cases h
      exact List.forall_mem_append.2 ⟨hlead, hrest hothers⟩
    | label id =>
      obtain ⟨n, c, hname⟩ := hmarks id List.mem_cons_self
      simp only [hname] at h
      obtain ⟨others, hothers, h⟩ := bind_ok h
      cases h
      simp only [List.forall_mem_append, List.forall_mem_cons]
      exact ⟨⟨hlead, writes_flush _⟩, writes_label ⟨c, rfl⟩, hrest hothers⟩
    | address target =>
      cases target with
      | symbol id =>
        dsimp only at h
        split at h
        · cases h
        · obtain ⟨others, hothers, h⟩ := bind_ok h
          cases h
          simp only [List.forall_mem_append, List.forall_mem_cons]
          exact ⟨⟨hlead, writes_flush _⟩, List.cons_ne_nil _ _, hrest hothers⟩
      | offset n =>
        obtain ⟨others, hothers, h⟩ := bind_ok h
        cases h
        simp only [List.forall_mem_append, List.forall_mem_cons]
        exact ⟨⟨hlead, writes_flush _⟩, List.cons_ne_nil _ _, hrest hothers⟩

theorem writes_stream {song : Nat} {s : ChannelStream} (hmarks : l.MarksLoops s.tokens)
    {lines : List Line} (h : l.stream song s = .ok lines) : ∀ line ∈ lines, l.Writes line := by
  obtain ⟨rest, hrest, h⟩ := bind_ok h
  cases h
  simp only [List.forall_mem_append, List.forall_mem_cons]
  exact ⟨⟨trivial, writes_label ⟨s.channel, rfl⟩, by simp⟩, writes_streamLines hmarks hrest⟩

theorem writes_songStreams {song : SongData} (hmarks : ∀ s ∈ song.streams, l.MarksLoops s.tokens)
    {lines : List Line} (h : l.songStreams song = .ok lines) : ∀ line ∈ lines, l.Writes line := by
  obtain ⟨parts, hparts, h⟩ := bind_ok h
  cases h
  intro line hline
  obtain ⟨s, hs, part, hstream, hline⟩ := exists_of_mem_flatten hparts hline
  exact writes_stream (hmarks s hs) hstream line hline

/-- **What a layout writes** whose streams only mark loops: a title, and then what its parts do. -/
theorem writes_lines (hmarks : l.StreamsMarkLoops) {lines : List Line} (h : l.lines = .ok lines) :
    ∃ rest, lines = .comment l.title :: rest ∧ ∀ line ∈ rest, l.Writes line := by
  obtain ⟨instruments, hinstruments, h⟩ := bind_ok h
  obtain ⟨mappings, hmappings, h⟩ := bind_ok h
  obtain ⟨streams, hstreams, h⟩ := bind_ok h
  cases h
  have hrecords : ∀ line ∈ l.songs.flatMap l.songRecord, l.Writes line := by
    intro line hline
    obtain ⟨song, hsong, hline⟩ := List.mem_flatMap.1 hline
    exact writes_songRecord hsong line hline
  have hparts : ∀ line ∈ streams.flatten, l.Writes line := by
    intro line hline
    obtain ⟨song, hsong, part, hpart, hline⟩ := exists_of_mem_flatten hstreams hline
    exact writes_songStreams (hmarks song hsong) hpart line hline
  refine ⟨[.segment .music l.dataBase] ++ l.header ++ l.songs.flatMap l.songRecord ++ instruments ++
    mappings ++ l.curves ++ streams.flatten ++ l.samples, rfl, ?_⟩
  simp only [List.forall_mem_append, List.forall_mem_singleton]
  exact ⟨⟨⟨⟨⟨⟨⟨trivial, writes_header⟩, hrecords⟩, writes_instrumentTables hinstruments⟩,
    writes_sampleTable hmappings⟩, writes_curves⟩, hparts⟩, writes_samples⟩

/-- **The lines of a layout behind the title can be read**, if its stem is of identifier characters
and their comments are on one line. -/
theorem Supplied.legible (h : l.Supplied) (hstem : l.stem.toList.all isIdentifierChar = true)
    (hcomments : ∀ text ∈ l.comments, '\n' ∉ text.toList) {lines : List Line}
    (hl : l.lines = .ok lines) :
    ∃ rest, lines = .comment l.title :: rest ∧ ∀ line ∈ rest, line.Legible := by
  have hclosed := h.isClosed hl
  obtain ⟨rest, rfl, hwrites⟩ :=
    writes_lines (fun song hsong s hs => (h.streams song hsong s hs).labels) hl
  have hlabel : ∀ name, .label name ∈ rest → IsIdentifier name.toList := by
    intro name hname
    obtain ⟨label, hnamed, rfl⟩ := hwrites _ hname
    exact label.isIdentifier_text hstem hnamed
  -- a word names a label, which is on a line of its own
  have hword : ∀ data, .words data ∈ rest → ∀ name, .label name ∈ data →
      IsIdentifier name.toList := by
    intro data hdata name hname
    have hmem := hclosed data (List.mem_cons_of_mem _ hdata) name hname
    exact hlabel name (List.mem_of_ne_of_mem (by simp) hmem)
  refine ⟨rest, rfl, fun line hline => ?_⟩
  have hholds := hwrites line hline
  cases line with
  | label name => exact hlabel name hline
  | bytes data => exact hholds
  | words data => exact ⟨hholds, hword data hline⟩
  | comment text => exact hcomments text hholds
  | segment | align | blank => trivial

end Layout

/-- **A line end in a comment ends it**: what follows is a line of the source. -/
theorem Listing.render_split (dialect : Dialect) (front back : String) (line : Line)
    (rest : List Line) :
    render dialect (.comment (front ++ "\n" ++ lineText dialect line ++ "\n; " ++ back) :: rest) =
      render dialect (.comment front :: line :: .comment back :: rest) := by
  apply String.toList_injective
  simp [Source.toList_render, lineText]

/-! ## Text and image -/

/-- No name of a song or an instrument has a line end. -/
structure Project.PartsOnOneLine (p : Project) : Prop where
  songs : ∀ song ∈ p.songs, '\n' ∉ song.name.toList
  instruments : ∀ i ∈ p.instruments, '\n' ∉ i.name.toList

namespace Compile

variable {o : Options} {p : Project} {score : Score}

/-- A song keeps its name. -/
theorem generate_names {g : Generated} (h : generate o p = .ok g) :
    ∀ song ∈ g.songs, ∃ source ∈ p.songs, song.name = source.name := by
  intro song hsong
  obtain ⟨source, hrecords⟩ := generate_records h song hsong
  exact ⟨source, List.mem_of_getElem? hrecords.mem, hrecords.name⟩

/-- Names on one line make comments on one line. -/
theorem notMem_comments {g : Generated} (h : generate o p = .ok g) (hparts : p.PartsOnOneLine) :
    ∀ text ∈ (packedLayout o p g).comments, '\n' ∉ text.toList := by
  have hsongs : ∀ song ∈ (packedLayout o p g).songs, '\n' ∉ song.name.toList := by
    intro song hsong
    obtain ⟨generated, hgenerated, rfl⟩ := List.mem_map.1 hsong
    obtain ⟨source, hsource, hname⟩ := generate_names h generated hgenerated
    exact hname ▸ hparts.songs source hsource
  simp only [Layout.comments, List.forall_mem_append, List.forall_mem_cons, List.forall_mem_map]
  refine ⟨⟨⟨by decide, by decide, by simp⟩, fun song hsong => ?_⟩, hparts.instruments⟩
  simp only [String.toList_append, List.mem_append, not_or]
  exact ⟨by decide, hsongs song hsong⟩

/-- **The text of a compile** begins with the name of the project, and its other lines can be
read. -/
theorem compile_text (h : compile o p = .ok score)
    (hstem : o.labelStem.toList.all isIdentifierChar = true) (hparts : p.PartsOnOneLine) :
    ∃ g rest, generate o p = .ok g ∧
      (packedLayout o p g).lines = .ok (.comment (packedLayout o p g).title :: rest) ∧
      Image.assemble (.comment (packedLayout o p g).title :: rest) o.dataBase = .ok score.image ∧
      score.text = Listing.render o.dialect (.comment (packedLayout o p g).title :: rest) ∧
      ∀ line ∈ rest, line.Legible := by
  obtain ⟨g, hg, h⟩ := bind_ok h
  obtain ⟨lines, hlines, h⟩ := bind_ok h
  obtain ⟨image, himage, h⟩ := bind_ok h
  cases h
  rw [layout_packed] at hlines
  have hlines := faults_ok hlines
  obtain ⟨rest, rfl, hlegible⟩ :=
    (generate_supplied hg).legible hstem (notMem_comments hg hparts) hlines
  exact ⟨g, rest, hg, hlines, himage, rfl, hlegible⟩

theorem notMem_title {text : String} (h : '\n' ∉ text.toList) (k : Kernel) :
    '\n' ∉ (text ++ " (" ++ k.name ++ " kernel)").toList := by
  have hkernel : '\n' ∉ k.name.toList := by
    cases k <;> decide
  simp only [String.toList_append, List.mem_append, not_or]
  exact ⟨⟨⟨h, by decide⟩, hkernel⟩, by decide⟩

/-- **Text and image are of the same lines.** The text of a compile, read line by line without its
comments and blank lines, states what the lines state that its image was assembled from, if no name
has a line end. -/
theorem compile_reads (h : compile o p = .ok score)
    (hstem : o.labelStem.toList.all isIdentifierChar = true) (hname : '\n' ∉ p.name.toList)
    (hparts : p.PartsOnOneLine) :
    ∃ g lines, generate o p = .ok g ∧ (packedLayout o p g).lines = .ok lines ∧
      Image.assemble lines o.dataBase = .ok score.image ∧
      Source.read o.dialect score.text = some (lines.filterMap (Line.statement o.dialect)) := by
  obtain ⟨g, rest, hg, hlines, himage, htext, hlegible⟩ := compile_text h hstem hparts
  refine ⟨g, _, hg, hlines, himage, ?_⟩
  rw [htext, Source.read_render]
  exact List.forall_mem_cons.2 ⟨notMem_title hname o.kernel, hlegible⟩

/-- The names of the short tune are on one line each. -/
theorem compile_reads_shortTune : ∃ score g lines, compile shortTuneTwice shortTune = .ok score ∧
    generate shortTuneTwice shortTune = .ok g ∧
    (packedLayout shortTuneTwice shortTune g).lines = .ok lines ∧
    Image.assemble lines 0x8000 = .ok score.image ∧
    Source.read .ca65 score.text = some (lines.filterMap (Line.statement .ca65)) := by
  obtain ⟨g, hg, hassembles⟩ := generate_shortTune
  obtain ⟨score, hscore⟩ := compile_succeeds hg hassembles
  obtain ⟨g, lines, hg, hlines, himage, hread⟩ :=
    compile_reads hscore (by decide) (by decide) ⟨by decide, by decide⟩
  exact ⟨score, g, lines, hscore, hg, hlines, himage, hread⟩

/-- **A name with line ends writes source of its own**: the line between them is read as a statement
that is not assembled. -/
theorem compile_injects (h : compile o p = .ok score)
    (hstem : o.labelStem.toList.all isIdentifierChar = true) {front back : String} {line : Line}
    (hname : p.name = front ++ "\n" ++ Listing.lineText o.dialect line ++ "\n; " ++ back)
    (hfront : '\n' ∉ front.toList) (hback : '\n' ∉ back.toList) (hline : line.Legible)
    (hparts : p.PartsOnOneLine) :
    ∃ g lines, generate o p = .ok g ∧ (packedLayout o p g).lines = .ok lines ∧
      Image.assemble lines o.dataBase = .ok score.image ∧
      Source.read o.dialect score.text = some ((line.statement o.dialect).toList ++
        lines.filterMap (Line.statement o.dialect)) := by
  obtain ⟨g, rest, hg, hlines, himage, htext, hlegible⟩ := compile_text h hstem hparts
  refine ⟨g, _, hg, hlines, himage, ?_⟩
  have htitle : (packedLayout o p g).title = front ++ "\n" ++ Listing.lineText o.dialect line ++
      "\n; " ++ (back ++ " (" ++ o.kernel.name ++ " kernel)") := by
    rw [← String.append_assoc, ← String.append_assoc, ← String.append_assoc, ← hname]
    rfl
  rw [htext, htitle, Listing.render_split, Source.read_render]
  · have hcomment : ∀ text, Line.statement o.dialect (.comment text) = none := fun _ => rfl
    cases hstatement : line.statement o.dialect <;> simp [hcomment, hstatement]
  · simp only [List.forall_mem_cons]
    exact ⟨hfront, hline, notMem_title hback o.kernel, hlegible⟩

/-- A project whose name has line ends. -/
def splitName : Project :=
  { name := "a\n\t.byte $FF\n; b"
    songs := [{ name := "tune", length := 1, patternLength := 1, tracks := [] }] }

/-- The name of this project writes a byte that is not assembled: its text and its image are of
different lines. -/
theorem not_reads_splitName : ∃ score g lines, compile {} splitName = .ok score ∧
    generate {} splitName = .ok g ∧ (packedLayout {} splitName g).lines = .ok lines ∧
    Image.assemble lines 0x8000 = .ok score.image ∧
    Source.read .ca65 score.text = some (.bytes [0xFF] :: lines.filterMap (Line.statement .ca65)) ∧
    Source.read .ca65 score.text ≠ some (lines.filterMap (Line.statement .ca65)) := by
  obtain ⟨g, hg, hassembles⟩ : ∃ g, generate {} splitName = .ok g ∧
      assembles (packedLayout {} splitName g) = true :=
    exists_generated rfl (by decide +kernel)
  obtain ⟨score, hscore⟩ := compile_succeeds hg hassembles
  obtain ⟨g, lines, hg, hlines, himage, hread⟩ := compile_injects hscore (by decide)
    (show splitName.name = "a" ++ "\n" ++ Listing.lineText .ca65 (.bytes [0xFF]) ++ "\n; " ++ "b"
      by decide) (by decide) (by decide) (by simp [Line.Legible]) ⟨by decide, by decide⟩
  refine ⟨score, g, lines, hscore, hg, hlines, himage, hread, ?_⟩
  rw [show Source.read .ca65 score.text = _ from hread]
  intro heq
  simpa [Line.statement] using congrArg (Option.map List.length) heq

end Compile

end Chiptune
