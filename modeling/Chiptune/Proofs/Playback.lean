import Chiptune.Proofs.Addresses
import Chiptune.Proofs.LoopRows
import Chiptune.Proofs.Passages
import Chiptune.Proofs.Songs
import Mathlib.Data.List.Nodup

/-!
# Playing a compiled song

The header of an image has a word for each song, which leads to the song's record, and the record
has a word for each channel, which leads to the channel's stream. A driver that starts there
executes the instructions that were generated for the channel, whatever was compressed, and stops
at the last of them (`compile_plays`).
-/

set_option autoImplicit false

namespace Chiptune

namespace Image

/-! ## Memory -/

/-- Memory that holds the music from its base on. -/
def memory (image : Image) (base : UInt16) : Player.Memory :=
  fun a => if base.toNat ≤ a then image.music[a - base.toNat]? else none

theorem reads_middle (front bytes back : List UInt8) :
    Player.Reads (fun a => (front ++ (bytes ++ back))[a]?) front.length bytes := by
  induction bytes generalizing front with
  | nil => trivial
  | cons b bytes ih =>
    refine ⟨by simp, ?_⟩
    have hrest := ih (front ++ [b])
    rw [List.length_append, List.append_assoc] at hrest
    exact hrest

/-- Bytes that are moved to a base. -/
theorem reads_moved {mem : Player.Memory} {offset : Nat} {bytes : List UInt8} (base : Nat)
    (h : Player.Reads mem offset bytes) :
    Player.Reads (fun a => if base ≤ a then mem (a - base) else none) (base + offset) bytes := by
  induction bytes generalizing offset with
  | nil => trivial
  | cons b bytes ih =>
    refine ⟨?_, ih h.2⟩
    simp only [Nat.le_add_right, if_true, Nat.add_sub_cancel_left, h.1]

variable {image : Image} {base : UInt16} {items before block after : List Item}
  {samples : List Line}

theorem Holds.reads_music (h : image.Holds base items samples)
    (hitems : items = before ++ (block ++ after)) :
    Player.Reads (fun a => image.music[a]?) (sizeOf before) (bytesOf image.address block) := by
  rw [h.music, hitems, bytesOf_append, bytesOf_append, ← length_bytesOf image.address before]
  exact reads_middle _ _ _

theorem Holds.reads (h : image.Holds base items samples)
    (hitems : items = before ++ (block ++ after)) :
    Player.Reads (image.memory base) (base.toNat + sizeOf before)
      (bytesOf image.address block) :=
  reads_moved base.toNat (h.reads_music hitems)

/-- A word of some that name labels, and where it is. -/
theorem split_words {α : Type} {xs : List α} {i : Nat} {x : α} (hx : xs[i]? = some x)
    (name : α → String) :
    ∃ front back, xs.map (fun x => Item.word (.label (name x))) =
        front ++ (.word (.label (name x)) :: back) ∧ sizeOf front = 2 * i := by
  induction xs generalizing i with
  | nil => cases hx
  | cons y xs ih =>
    cases i with
    | zero =>
      cases hx
      exact ⟨[], _, rfl, rfl⟩
    | succ i =>
      obtain ⟨front, back, heq, hsize⟩ := ih hx
      refine ⟨.word (.label (name y)) :: front, back, by rw [List.map_cons, heq]; rfl, ?_⟩
      rw [sizeOf_cons, hsize, Item.size]
      omega

/-- A word that names a label is the label's address. -/
theorem readWord_address {mem : Player.Memory} {at' : Nat} {name : String} {address : UInt16}
    (haddress : image.address name = some address)
    (h : Player.Reads mem at' (bytesOf image.address [.word (.label name)])) :
    Player.readWord mem at' = some address := by
  refine Player.readWord_of_reads ?_
  simpa [Item.bytes, haddress] using h

end Image

/-! ## Streams -/

/-- Every token but a label takes a byte. -/
theorem length_le_byteSize (tokens : List Token) :
    tokens.length ≤ byteSize tokens + tokens.countP Token.isLabel := by
  induction tokens with
  | nil => exact Nat.le_refl _
  | cons token rest ih =>
    rw [List.length_cons, byteSize, List.countP_cons]
    cases token <;> simp only [Token.byteSize, Token.isLabel, if_true, if_false,
      Bool.false_eq_true] <;> omega

/-- A packed stream has as many labels as the stream it stands for. -/
theorem Compressor.Packs.countP_isLabel {k : Kernel} {opcode : UInt8} {stream source : List Token}
    (h : Packs k opcode stream source) :
    stream.countP Token.isLabel = source.countP Token.isLabel := by
  obtain ⟨parts, rfl, rfl, hsound⟩ := h
  rw [tokensOf, sourceOf, List.countP_flatMap, List.countP_flatMap]
  congr 1
  refine List.map_congr_left fun p hp => ?_
  cases p with
  | literal ts => rfl
  | reference count target passage =>
    have hreplays : Replays k _ count target passage := hsound _ hp
    have hnone : passage.countP Token.isLabel = 0 :=
      List.countP_eq_zero.2 fun t ht => by
        simp [Token.isLabel_of_replayable (hreplays.replayable t ht)]
    rw [Function.comp_apply, Function.comp_apply, Part.source, hnone]
    rfl

/-- Addresses of symbols in an image. -/
def Tables.locate (t : Tables) (image : Image) : Target → Option UInt16
  | .symbol id => (t.symbols.name? id).bind image.address
  | .offset _ => none

namespace Layout

variable {l : Layout} {image : Image} {song : Nat} {channel : String}

/-- Addresses that a stream may use: those of symbols, and those of its own targets. -/
def locate (l : Layout) (image : Image) (song : Nat) (channel : String) : Target → Option UInt16
  | .symbol id => (l.tables.symbols.name? id).bind image.address
  | .offset target => image.address ((Label.streamRef song channel target.toNat).text l.stem)

/-- The bytes of a stream are those of its tokens. -/
theorem bytesOf_tokenItems {targets : List Nat} {offset : Nat} {tokens : List Token}
    (hknows : ∀ token ∈ tokens, l.Knows token) :
    Image.bytesOf image.address (l.tokenItems song channel targets offset tokens) =
      Player.encodedAll (l.locate image song channel) tokens := by
  induction tokens generalizing offset with
  | nil => rfl
  | cons token rest ih =>
    have hlabels :
        Image.bytesOf image.address (l.targetItems song channel targets offset) = [] := by
      unfold targetItems
      split <;> rfl
    have htoken : (l.tokenItem song channel token).bytes image.address =
        token.encoded (l.locate image song channel) := by
      cases token with
      | address target =>
        cases target with
        | symbol id =>
          obtain ⟨name, hname⟩ := Option.isSome_iff_exists.1
            (hknows (.address (.symbol id)) List.mem_cons_self id (.inr rfl))
          simp [tokenItem, Item.bytes, Token.encoded, locate, hname]
        | offset target => rfl
      | _ => rfl
    rw [tokenItems, Image.bytesOf_append, hlabels, List.nil_append, Image.bytesOf_cons, htoken,
      ih fun t ht => hknows t (List.mem_cons_of_mem _ ht)]
    rfl

theorem tokenItem_mem {targets : List Nat} {offset : Nat} {tokens : List Token} {token : Token}
    (ht : token ∈ tokens) :
    l.tokenItem song channel token ∈ l.tokenItems song channel targets offset tokens := by
  induction tokens generalizing offset with
  | nil => cases ht
  | cons first rest ih =>
    rw [tokenItems]
    rcases List.mem_cons.1 ht with rfl | ht
    · simp
    · exact List.mem_append_right _ (List.mem_cons_of_mem _ (ih ht))

/-- The addresses of a stream are known in an image that holds it. -/
theorem located_of_resolved {targets : List Nat} {tokens : List Token}
    (hknows : ∀ token ∈ tokens, l.Knows token)
    (hresolved : ∀ name, .word (.label name) ∈ l.tokenItems song channel targets 0 tokens →
      (image.address name).isSome = true) :
    Player.Located (l.locate image song channel) tokens := by
  intro target htarget
  have hmem := @tokenItem_mem l song channel targets 0 tokens _ htarget
  cases target with
  | symbol id =>
    obtain ⟨name, hname⟩ := Option.isSome_iff_exists.1 (hknows _ htarget id (.inr rfl))
    rw [tokenItem, hname] at hmem
    rw [locate, hname]
    exact hresolved name hmem
  | offset target => exact hresolved _ hmem

/-- Instructions with addresses of symbols only are executed alike in all streams. -/
theorem executedAll_locate {is : List Instruction} (h : ∀ i ∈ is, i.UsesSymbols) :
    Player.executedAll (l.locate image song channel) is =
      Player.executedAll (l.tables.locate image) is := by
  have heach : ∀ i ∈ is, Player.executed (l.locate image song channel) i =
      Player.executed (l.tables.locate image) i := by
    intro i hi
    cases i with
    | op o bytes targets =>
      have htargets : targets.mapM (l.locate image song channel) =
          targets.mapM (l.tables.locate image) := by
        have hall := h _ hi
        clear h hi
        induction targets with
        | nil => rfl
        | cons target targets ih =>
          obtain ⟨id, rfl⟩ := hall target List.mem_cons_self
          rw [List.mapM_cons, List.mapM_cons, ih fun t ht => hall t (List.mem_cons_of_mem _ ht)]
          rfl
      rw [Player.executed, Player.executed, htargets]
    | _ => rfl
  rw [Player.executedAll, Player.executedAll]
  clear h
  induction is with
  | nil => rfl
  | cons i is ih =>
    have ih := ih fun j hj => heach j (List.mem_cons_of_mem _ hj)
    rw [List.filter_cons]
    split
    · rw [List.mapM_cons, List.mapM_cons, ih, heach i List.mem_cons_self]
    · exact ih

/-! ## Following the words -/

variable {tables : List Item} {A B : List SongData} {data : SongData}

/-- The word of a song in the header is the address of its last record. -/
theorem Assembled.readWord_header (h : l.Assembled tables image) {i : Nat}
    (hi : l.songs[i]? = some data) {record : UInt16}
    (hrecord : image.address ((Label.song data.index).text l.stem) = some record) :
    Player.readWord (fun a => image.music[a]?) (0x0C + 2 * i) = some record := by
  obtain ⟨front, back, hwords, hsize⟩ :=
    Image.split_words hi fun data => (Label.song data.index).text l.stem
  have hitems : l.items tables = (l.headerItems ++ front) ++
      ([.word (.label ((Label.song data.index).text l.stem))] ++ (back ++
        (l.songs.flatMap l.recordItems ++ (tables ++ l.songs.flatMap l.songItems)))) := by
    have hmap : (l.songs.map fun song => Item.word (l.labelWord (.song song.index))) =
        front ++ (.word (.label ((Label.song data.index).text l.stem)) :: back) := hwords
    rw [items, hmap]
    simp
  have hreads := h.holds.reads_music hitems
  rw [Image.sizeOf_append, hsize] at hreads
  exact Image.readWord_address hrecord hreads

/-- The word of a channel in the last record of a song is the address of the channel's stream. -/
theorem Assembled.readWord_record (h : l.Assembled tables image) (hmarks : l.StreamsMarkLoops)
    (hsongs : l.songs = A ++ data :: B) (hlast : ∀ b ∈ B, b.index ≠ data.index) {j : Nat}
    {s : ChannelStream} (hj : data.streams[j]? = some s) {start : UInt16}
    (hstart : image.address ((Label.stream data.index s.channel.shortName).text l.stem) =
      some start) :
    ∃ record, image.address ((Label.song data.index).text l.stem) = some record ∧
      Player.readWord (image.memory l.dataBase) (record.toNat + 2 * j) = some start := by
  obtain ⟨before, after, record, hitems, hrecord, hat⟩ := h.song_address hmarks hsongs hlast
  obtain ⟨front, back, hwords, hsize⟩ :=
    Image.split_words hj fun s => (Label.stream data.index s.channel.shortName).text l.stem
  obtain ⟨back', hback⟩ : ∃ back', l.recordItems data =
      .label ((Label.song data.index).text l.stem) :: (front ++
        .word (.label ((Label.stream data.index s.channel.shortName).text l.stem)) :: back') := by
    have hmap : (data.streams.map fun s =>
        Item.word (l.labelWord (.stream data.index s.channel.shortName))) = _ := hwords
    rw [recordItems, hmap, List.append_assoc, List.cons_append]
    exact ⟨_, rfl⟩
  have hitems' : l.items tables =
      (before ++ .label ((Label.song data.index).text l.stem) :: front) ++
        ([.word (.label ((Label.stream data.index s.channel.shortName).text l.stem))] ++
          (back' ++ after)) := by
    rw [hitems, hback]
    simp
  have hreads := h.holds.reads hitems'
  rw [Image.sizeOf_append, Image.sizeOf_cons, hsize, Item.size, Nat.zero_add, ← Nat.add_assoc,
    ← hat] at hreads
  exact ⟨record, hrecord, Image.readWord_address hstart hreads⟩

/-- The byte behind the words of the last record of a song is its speed. -/
theorem Assembled.speed_record (h : l.Assembled tables image) (hmarks : l.StreamsMarkLoops)
    (hsongs : l.songs = A ++ data :: B) (hlast : ∀ b ∈ B, b.index ≠ data.index) :
    ∃ record, image.address ((Label.song data.index).text l.stem) = some record ∧
      image.memory l.dataBase (record.toNat + 2 * data.streams.length) = some data.speed := by
  obtain ⟨before, after, record, hitems, hrecord, hat⟩ := h.song_address hmarks hsongs hlast
  let words := data.streams.map fun s =>
    Item.word (l.labelWord (.stream data.index s.channel.shortName))
  have hsize : Image.sizeOf words = 2 * data.streams.length := Image.sizeOf_words _ _
  obtain ⟨tempo, hback⟩ : ∃ tempo, l.recordItems data =
      .label ((Label.song data.index).text l.stem) :: (words ++ [.byte data.speed, tempo]) :=
    ⟨_, rfl⟩
  have hitems' : l.items tables =
      (before ++ .label ((Label.song data.index).text l.stem) :: words) ++
        ([.byte data.speed] ++ (tempo :: after)) := by
    rw [hitems, hback]
    simp
  have hreads := h.holds.reads hitems'
  rw [Image.sizeOf_append, Image.sizeOf_cons, hsize, Item.size, Nat.zero_add, ← Nat.add_assoc,
    ← hat] at hreads
  exact ⟨record, hrecord, hreads.1⟩

/-- A stream in an image with at most one label has positions of 32 bits, since all its other
tokens take bytes. -/
theorem Assembled.length_stream_le (h : l.Assembled tables image) {before after : List Item}
    {s : ChannelStream} (hitems : l.items tables = before ++ (l.streamItems data.index s ++ after))
    (hlabels : s.tokens.countP Token.isLabel ≤ 1) : s.tokens.length ≤ UInt32.size := by
  have hinside := h.holds.inside
  have hlength := length_le_byteSize s.tokens
  rw [hitems, Image.sizeOf_append, Image.sizeOf_append, sizeOf_streamItems,
    Image.maxAddress] at hinside
  rw [UInt32.size]
  omega

/-- **A stream in an image is played like the stream it was packed from.** -/
theorem Assembled.runs_stream (h : l.Assembled tables image) (hmarks : l.StreamsMarkLoops)
    (hsongs : l.songs = A ++ data :: B) (hlast : ∀ b ∈ B, b.index ≠ data.index)
    {C D : List ChannelStream} {s : ChannelStream} (hstreams : data.streams = C ++ s :: D)
    (hother : ∀ d ∈ D, d.channel.shortName ≠ s.channel.shortName)
    {opcode : UInt8} (hk : l.kernel.opcode .reference = some opcode) {source : List Token}
    (hpacks : Compressor.Packs l.kernel opcode s.tokens source)
    (hplayable : Playable l.kernel source) (hlabels : source.countP Token.isLabel ≤ 1) :
    ∃ start es,
      image.address ((Label.stream data.index s.channel.shortName).text l.stem) = some start ∧
      Player.executedAll (l.tables.locate image) (disassemble l.kernel source) = some es ∧
      Player.Runs l.kernel (image.memory l.dataBase) ⟨start.toNat, []⟩ es := by
  obtain ⟨before, after, start, hitems, hstart, hat, htargets⟩ :=
    h.stream_address hmarks hsongs hlast hstreams hother
  have hknows := h.knows data (by simp [hsongs]) s (by simp [hstreams])
  have hreads := h.holds.reads hitems
  rw [streamItems, Image.bytesOf_cons, bytesOf_tokenItems hknows, ← hat] at hreads
  have hloc := located_of_resolved hknows fun name hname => h.holds.resolved name (by
    rw [hitems]
    exact List.mem_append_right _ (List.mem_append_left _ (List.mem_cons_of_mem _ hname)))
  have hsize := h.length_stream_le hitems (hpacks.countP_isLabel ▸ hlabels)
  obtain ⟨parts, htokens, rfl, hsound⟩ := hpacks
  obtain ⟨es, hes, hruns⟩ := Player.runs_parts hk hsize hreads hloc
    (fun target htarget hlt => htargets target.toNat
      (List.mem_filterMap.2 ⟨_, htarget, rfl⟩) hlt)
    (show s.tokens = [] ++ Compressor.tokensOf opcode parts from htokens) hsound hplayable.tagged
    hplayable.ends
  exact ⟨start, es, hstart, by rw [← executedAll_locate hplayable.symbols, hes], hruns⟩

end Layout

/-! ## Compiled songs -/

namespace Compressor

/-- The labels of a packed stream are those of the stream it stands for. -/
theorem Packs.label_mem {k : Kernel} {opcode : UInt8} {stream source : List Token}
    (h : Packs k opcode stream source) {id : Nat} (hid : .label id ∈ stream) :
    .label id ∈ source := by
  obtain ⟨parts, rfl, rfl, -⟩ := h
  obtain ⟨p, hp, hmem⟩ := List.mem_flatMap.1 hid
  refine List.mem_flatMap.2 ⟨p, hp, ?_⟩
  cases p with
  | literal ts => exact hmem
  | reference count target passage => simp [Part.tokens, Reference.tokens] at hmem

end Compressor

/-- Names in labels tell the channels of a project apart. -/
theorem nodup_shortNames (p : Project) : (p.channels.map Channel.shortName).Nodup := by
  have hall : (Channel.all.map Channel.shortName).Nodup := by decide +kernel
  exact hall.sublist (List.filter_sublist.map _)

/-- The last element with a key. -/
theorem exists_last {α β : Type} {f : α → β} {key : β} {xs : List α} (h : ∃ x ∈ xs, f x = key) :
    ∃ front x back, xs = front ++ x :: back ∧ f x = key ∧ ∀ y ∈ back, f y ≠ key := by
  induction xs with
  | nil => simp at h
  | cons first rest ih =>
    by_cases hrest : ∃ x ∈ rest, f x = key
    · obtain ⟨front, x, back, rfl, hx, hback⟩ := ih hrest
      exact ⟨first :: front, x, back, rfl, hx, hback⟩
    · obtain ⟨x, hmem, hx⟩ := h
      rcases List.mem_cons.1 hmem with rfl | hmem
      · exact ⟨[], x, rest, rfl, hx, fun y hy hkey => hrest ⟨y, hy, hkey⟩⟩
      · exact absurd ⟨x, hmem, hx⟩ hrest

namespace Compile

variable {o : Options} {p : Project}

/-- A driver that follows the words of a song and of a channel executes the instructions of a stream
and stops; their addresses are those of the symbols. -/
def Plays (o : Options) (t : Tables) (image : Image) (song channel : Nat) (tokens : List Token) :
    Prop :=
  ∃ record start es,
    Player.readWord (fun a => image.music[a]?) (0x0C + 2 * song) = some record ∧
    Player.readWord (image.memory o.dataBase) (record.toNat + 2 * channel) = some start ∧
    Player.executedAll (t.locate image) (disassemble o.kernel tokens) = some es ∧
    Player.Runs o.kernel (image.memory o.dataBase) ⟨start.toNat, []⟩ es

/-- A song with compressed streams. -/
def packed (o : Options) (song : SongData) : SongData :=
  (packSong o.kernel o.compression song).1

/-- The layout of a compile. -/
def packedLayout (o : Options) (p : Project) (g : Generated) : Layout :=
  g.layout o p (g.songs.map (packed o))

theorem exists_of_mem_packed {song : SongData} {s : ChannelStream}
    (h : s ∈ (packed o song).streams) :
    ∃ source ∈ song.streams, s = (packStream o.kernel o.compression source).1 := by
  simp only [packed, packSong, List.map_map, List.mem_map, Function.comp_apply] at h
  obtain ⟨source, hsource, rfl⟩ := h
  exact ⟨source, hsource, rfl⟩

/-- A compile lays out the songs that it has packed. -/
theorem layout_packed (o : Options) (p : Project) (g : Generated) :
    g.layout o p ((g.songs.map (packSong o.kernel o.compression)).map Prod.fst) =
      packedLayout o p g := by
  rw [List.map_map]
  rfl

/-- The report of a compile. -/
def reportOf (o : Options) (p : Project) (g : Generated) (image : Image) : Report :=
  { kernel := o.kernel.name
    songs := g.songs.map fun song => (packSong o.kernel o.compression song).2
    tables := tableReport (packedLayout o p g)
    musicBytes := image.music.length
    sampleBytes := image.samples.length
    warnings := g.tables.log.warnings.length }

/-- All that a compile returns. -/
theorem compile_score {score : Score} (h : compile o p = .ok score) :
    ∃ g lines, generate o p = .ok g ∧ (packedLayout o p g).lines = .ok lines ∧
      Image.assemble lines o.dataBase = .ok score.image ∧
      score.text = Listing.render o.dialect lines ∧ score.warnings = g.tables.log.warnings ∧
      score.report = reportOf o p g score.image := by
  obtain ⟨g, hg, h⟩ := bind_ok h
  obtain ⟨lines, hlines, h⟩ := bind_ok h
  obtain ⟨image, himage, h⟩ := bind_ok h
  cases h
  simp only [layout_packed] at hlines
  refine ⟨g, lines, hg, faults_ok hlines, himage, rfl, rfl, ?_⟩
  rw [reportOf, layout_packed, List.map_map]
  rfl

/-- What a compile is made of. -/
theorem compile_ok {score : Score} (h : compile o p = .ok score) :
    ∃ g lines, generate o p = .ok g ∧ (packedLayout o p g).lines = .ok lines ∧
      Image.assemble lines o.dataBase = .ok score.image := by
  obtain ⟨g, lines, hg, hlines, himage, -⟩ := compile_score h
  exact ⟨g, lines, hg, hlines, himage⟩

/-- The streams of a compile only mark loops. -/
theorem streamsMarkLoops {g : Generated} {arpeggios : List Nat} {t : Tables}
    (h : ∀ song ∈ g.songs, FromSong o p g.slots arpeggios t g.tables song) :
    (packedLayout o p g).StreamsMarkLoops := by
  intro song hsong s hs id hid
  obtain ⟨opcode, hk⟩ := o.kernel.opcode_reference
  obtain ⟨source, hsource, rfl⟩ := List.mem_map.1 hsong
  obtain ⟨stream, hstream, rfl⟩ := exists_of_mem_packed hs
  obtain ⟨song, patches, -, -, -, -, hall⟩ := (h source hsource).streams
  obtain ⟨u, u', hgenerate, -, hto⟩ := hall stream hstream
  have hplayable := Stream.generate_playable hgenerate
  have hpacks := Compressor.apply_packs hk hplayable.complete o.compression
  exact ⟨_, _, hto.name? (Stream.generate_labels hgenerate (hpacks.label_mem hid))⟩

/-- A song of a compile keeps its place in the layout. -/
theorem packedLayout_song {g : Generated} {i : Nat} {song : SongData}
    (hi : g.songs[i]? = some song) : (packedLayout o p g).songs[i]? = some (packed o song) := by
  rw [packedLayout, Generated.layout, List.getElem?_map, hi]
  rfl

/-- The last record that a layout has of a song. -/
theorem exists_last_record {g : Generated} {song : SongData} (hsong : song ∈ g.songs) :
    ∃ last ∈ g.songs, last.index = song.index ∧ ∃ front back,
      (packedLayout o p g).songs = front ++ packed o last :: back ∧
        ∀ b ∈ back, b.index ≠ (packed o last).index := by
  obtain ⟨front, last, back, hsongs, hindex, hback⟩ :=
    exists_last (f := SongData.index) ⟨song, hsong, rfl⟩
  refine ⟨last, by simp [hsongs], hindex, front.map (packed o), back.map (packed o), ?_, ?_⟩
  · rw [packedLayout, Generated.layout, hsongs, List.map_append, List.map_cons]
  · intro b hb
    obtain ⟨other, hother, rfl⟩ := List.mem_map.1 hb
    exact hindex ▸ hback other hother

/-- No other stream of a song has the name of a channel. -/
theorem FromSong.split_streams {slots : Slots} {arpeggios : List Nat} {t u : Tables}
    {song : SongData} (h : FromSong o p slots arpeggios t u song) {s : ChannelStream}
    (hs : s ∈ song.streams) :
    ∃ before behind, song.streams = before ++ s :: behind ∧
      ∀ d ∈ behind, d.channel.shortName ≠ s.channel.shortName := by
  obtain ⟨before, s', behind, hstreams, hname, hbehind⟩ :=
    exists_last (f := fun s => s.channel.shortName) ⟨s, hs, rfl⟩
  have hnodup : (song.streams.map fun s => s.channel.shortName).Nodup := by
    have hnames := nodup_shortNames p
    rw [← h.channels, List.map_map] at hnames
    exact hnames
  obtain rfl : s' = s := List.inj_on_of_nodup_map hnodup (by simp [hstreams]) hs hname
  exact ⟨before, behind, hstreams, hbehind⟩

/-- **A song is played, on every channel, like the stream that was generated for it.** -/
theorem plays_song {g : Generated} {lines : List Line} {image : Image}
    (hg : generate o p = .ok g) (hlines : (packedLayout o p g).lines = .ok lines)
    (himage : Image.assemble lines o.dataBase = .ok image) {i j : Nat} {song : SongData}
    {s : ChannelStream} (hi : g.songs[i]? = some song) (hj : song.streams[j]? = some s) :
    Plays o g.tables image i j s.tokens := by
  obtain ⟨opcode, hk⟩ := o.kernel.opcode_reference
  obtain ⟨-, arpeggios, t, hstart, hall⟩ := generate_ok hg
  obtain ⟨items, hassembled⟩ := Layout.assembled _ hlines himage
  have hmarks := streamsMarkLoops hall
  have hsong := hall song (List.mem_of_getElem? hi)
  -- the word of the song leads to the last record of its name, which has the same streams
  obtain ⟨last, hlast, hindex, front, back, hlayout, hothers⟩ :=
    exists_last_record (o := o) (p := p) (List.mem_of_getElem? hi)
  have hsame : last.streams = song.streams :=
    (hall last hlast).streams_eq (hstart.grooves.indexed UniqueTable.indexed_empty) hsong hindex
  let pack := fun s => (packStream o.kernel o.compression s).1
  have hpack : (packed o last).streams = song.streams.map pack := by
    rw [packed, packSong, List.map_map, hsame]
    rfl
  obtain ⟨before, behind, hstreams, hbehind⟩ := hsong.split_streams (List.mem_of_getElem? hj)
  have hsplit : (packed o last).streams = before.map pack ++ pack s :: behind.map pack := by
    rw [hpack, hstreams, List.map_append, List.map_cons]
  have hnames : ∀ d ∈ behind.map pack, d.channel.shortName ≠ (pack s).channel.shortName := by
    intro d hd
    obtain ⟨other, hother, rfl⟩ := List.mem_map.1 hd
    exact hbehind other hother
  obtain ⟨source, patches, -, -, -, -, hgenerates⟩ := hsong.streams
  obtain ⟨u, u', hgenerate, -, -⟩ := hgenerates s (List.mem_of_getElem? hj)
  have hplayable := Stream.generate_playable hgenerate
  obtain ⟨start, es, haddress, hes, hruns⟩ := hassembled.runs_stream hmarks hlayout hothers hsplit
    hnames hk (Compressor.apply_packs hk hplayable.complete o.compression) hplayable (by
      rw [Stream.generate_labelCount hgenerate]
      split <;> decide)
  obtain ⟨record, hrecord, hword⟩ := hassembled.readWord_record hmarks hlayout hothers
    (by rw [hpack, List.getElem?_map, hj]; rfl) haddress
  have hfirst := hassembled.readWord_header (packedLayout_song hi) (hindex ▸ hrecord)
  exact ⟨record, start, es, hfirst, hword, hes, hruns⟩

/-- **A compiled project is played like the streams that were generated for it.** Every selected
song has a word in the header that leads to its record, every channel of the project has a word in
the record that leads to its stream, and a driver that starts there executes the instructions that
were generated for the song and the channel, with the addresses of the symbols they name, whatever
the compression. -/
theorem compile_plays {score : Score} (h : compile o p = .ok score) :
    ∃ g selected, generate o p = .ok g ∧ selectedSongs o p = .ok selected ∧
      ∀ (i index j : Nat) (channel : Channel), selected[i]? = some index →
        p.channels[j]? = some channel → ∃ song s source arpeggios patches t t',
          g.songs[i]? = some song ∧ song.streams[j]? = some s ∧ p.songs[index]? = some source ∧
          Stream.generate (streamJob o p g.slots arpeggios index source patches channel) t =
            (.ok s.tokens, t') ∧
          Plays o g.tables score.image i j s.tokens := by
  obtain ⟨g, lines, hg, hlines, himage⟩ := compile_ok h
  obtain ⟨hselected, arpeggios, t, -, hall⟩ := generate_ok hg
  refine ⟨g, _, hg, hselected, fun i index j channel hi hj => ?_⟩
  rw [List.getElem?_map] at hi
  obtain ⟨song, hsong, rfl⟩ := Option.map_eq_some_iff.1 hi
  have hfrom := hall song (List.mem_of_getElem? hsong)
  rw [← hfrom.channels, List.getElem?_map] at hj
  obtain ⟨s, hs, rfl⟩ := Option.map_eq_some_iff.1 hj
  obtain ⟨source, patches, -, -, hsource, -, hgenerates⟩ := hfrom.streams
  obtain ⟨u, u', hgenerate, -, -⟩ := hgenerates s (List.mem_of_getElem? hs)
  exact ⟨song, s, source, arpeggios, patches, u, u', hsong, hs, hsource, hgenerate,
    plays_song hg hlines himage hsong hs⟩

/-- Whether the lines of a layout can be assembled. -/
def assembles (l : Layout) : Bool :=
  match l.lines with
  | .ok lines =>
    match lines.foldlM Image.Draft.addLine { music := { base := l.dataBase } } with
    | .ok d => d.holes.all fun hole => (d.labels.lookup hole.label).isSome
    | .error _ => false
  | .error _ => false

/-- A project compiles if its data can be generated and assembled. -/
theorem compile_succeeds {g : Generated} (hg : generate o p = .ok g)
    (h : assembles (packedLayout o p g) = true) : ∃ score, compile o p = .ok score := by
  unfold assembles at h
  split at h
  · rename_i lines hlines
    split at h
    · rename_i d hd
      obtain ⟨image, himage⟩ :=
        Image.assemble_succeeds hd fun hole hmem => List.all_eq_true.1 h hole hmem
      have himage : Image.assemble lines o.dataBase = .ok image := himage
      unfold compile
      simp only [hg, layout_packed, hlines, himage, faults, Except.mapError, bind, Except.bind]
      exact ⟨_, rfl⟩
    · cases h
  · cases h

/-- A short tune that plays over and over. -/
def shortTune : Project :=
  { name := "tune"
    songs := [
      { name := "one", length := 1, patternLength := 2, loopPoint := some 0
        tracks := [{
          channel := .square1
          patterns := [{ notes := [
            { row := 0, value := some (.pitch 36) }, { row := 1, value := some .stop }] }]
          order := [some 0] }] }] }

/-- The short tune, selected twice. -/
def shortTuneTwice : Options := { songs := some [0, 0] }

/-- The buckets of the table that holds the default curve only. -/
def defaultBuckets : Std.HashMap UInt32 (List Nat) :=
  ({} : Std.HashMap UInt32 (List Nat)).insert (UniqueTable.key Curve.default 0) [0]

/-- A project passes a test if it does with something written out that cannot be evaluated. -/
theorem exists_of_written {test : Generated → Bool} {written : Generated → Generated}
    (hwritten : ∀ g, generate o p = .ok g → written g = g)
    (htest : (generate o p).toOption.any (fun g => test (written g)) = true) :
    ∃ g, generate o p = .ok g ∧ test g = true := by
  cases hg : generate o p with
  | error e =>
    rw [hg] at htest
    cases htest
  | ok g =>
    rw [hg] at htest
    have htest : test (written g) = true := htest
    rw [hwritten g hg] at htest
    exact ⟨g, rfl, htest⟩

theorem withDefault_eq :
    UniqueTable.withDefault Curve.default = ⟨#[Curve.default], defaultBuckets⟩ := by
  simp [defaultBuckets, UniqueTable.withDefault, UniqueTable.intern, UniqueTable.find?,
    UniqueTable.empty]

/-- A project without curves passes a test if it does with the buckets of the default curve written
out: those of a table cannot be evaluated. -/
theorem exists_of_buckets {test : Generated → Bool}
    (hcurves : (generate o p).toOption.map (·.tables.curves) =
      some (UniqueTable.withDefault Curve.default))
    (htest : (generate o p).toOption.any (fun g => test { g with
      tables := { g.tables with curves := ⟨#[Curve.default], defaultBuckets⟩ } }) = true) :
    ∃ g, generate o p = .ok g ∧ test g = true := by
  refine @exists_of_written o p test (fun g => { g with
    tables := { g.tables with curves := ⟨#[Curve.default], defaultBuckets⟩ } }) ?_ htest
  intro g hg
  rw [hg] at hcurves
  have heq : g.tables.curves = ⟨#[Curve.default], defaultBuckets⟩ :=
    (Option.some.inj hcurves).trans withDefault_eq
  rw [← heq]

theorem exists_generated (hcurves : (generate o p).toOption.map (·.tables.curves) =
      some (UniqueTable.withDefault Curve.default))
    (hassembles : (generate o p).toOption.any (fun g => assembles (packedLayout o p { g with
      tables := { g.tables with curves := ⟨#[Curve.default], defaultBuckets⟩ } })) = true) :
    ∃ g, generate o p = .ok g ∧ assembles (packedLayout o p g) = true :=
  @exists_of_buckets o p (fun g => assembles (packedLayout o p g)) hcurves hassembles

theorem generate_shortTune : ∃ g, generate shortTuneTwice shortTune = .ok g ∧
    assembles (packedLayout shortTuneTwice shortTune g) = true :=
  exists_generated rfl (by decide +kernel)

/-- The first of both selections of the tune is played on the first channel. -/
theorem compile_plays_shortTune : ∃ score g s, compile shortTuneTwice shortTune = .ok score ∧
    generate shortTuneTwice shortTune = .ok g ∧
    (g.songs[0]?.bind fun song => song.streams[0]?) = some s ∧
    s.tokens = [.label 0, .note 24, .note 0, .opcode 0x44, .address (.symbol 0)] ∧
    Plays shortTuneTwice g.tables score.image 0 0 s.tokens := by
  obtain ⟨g, hg, hassembles⟩ := generate_shortTune
  obtain ⟨score, hscore⟩ := compile_succeeds hg hassembles
  obtain ⟨g', selected, hg', hselected, hplays⟩ := compile_plays hscore
  obtain rfl := Except.ok.inj (hg.symm.trans hg')
  obtain rfl : [0, 0] = selected := Except.ok.inj hselected
  obtain ⟨song, s, -, -, -, -, -, hsong, hs, -, -, hplays⟩ := hplays 0 0 0 .square1 rfl rfl
  have htokens : (generate shortTuneTwice shortTune).toOption.bind (fun g =>
      (g.songs[0]?.bind fun song => song.streams[0]?).map (·.tokens)) =
      some [.label 0, .note 24, .note 0, .opcode 0x44, .address (.symbol 0)] := by
    decide +kernel
  have hfirst : (g.songs[0]?.bind fun song => song.streams[0]?) = some s := by
    rw [hsong]
    exact hs
  rw [hg] at htokens
  have htokens : (g.songs[0]?.bind fun song => song.streams[0]?).map (·.tokens) = _ := htokens
  rw [hfirst] at htokens
  exact ⟨score, g, s, hscore, hg, hfirst, Option.some.inj htokens, hplays⟩

end Compile

end Chiptune
