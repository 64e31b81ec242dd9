import Chiptune.Proofs.Playback
import Chiptune.Proofs.RenamedStreams

/-!
# A song in different selections

The songs before a song fill the tables that it shares with them, so in another selection its
streams have other numbers of symbols, and its labels other numbers of curves and grooves. Nothing
else is different: labels that take each other's place are those of one loop or of entries with the
same bytes (`Label.Corresponds`), and they do so one to one.

* `Compile.compile_selections`: **a song has the same compressed streams in every selection**, up to
  a renaming of symbols.
-/

set_option autoImplicit false

namespace Chiptune

/-! ## Entries of two tables -/

namespace UniqueTable

variable {t t' u u' : UniqueTable}

/-- Indices at which one byte string is found. -/
def Same (t u : UniqueTable) (i j : Nat) : Prop :=
  ∃ bytes tag, t.find? bytes tag = some i ∧ u.find? bytes tag = some j

theorem Same.symm {i j : Nat} (h : Same t u i j) : Same u t j i := by
  obtain ⟨bytes, tag, hi, hj⟩ := h
  exact ⟨bytes, tag, hj, hi⟩

theorem Same.get? {i j : Nat} (h : Same t u i j) :
    ∃ bytes, t.get? i = some bytes ∧ u.get? j = some bytes := by
  obtain ⟨bytes, tag, hi, hj⟩ := h
  exact ⟨bytes, get?_of_find? hi, get?_of_find? hj⟩

/-- **An entry has one counterpart.** Where a byte string is found depends on its checksum only, and
an entry is found under one. -/
theorem Same.unique (ht : t.Disjoint) {i j j' : Nat} (h : Same t u i j) (h' : Same t u i j') :
    j = j' := by
  obtain ⟨bytes, tag, hi, hj⟩ := h
  obtain ⟨bytes', tag', hi', hj'⟩ := h'
  obtain rfl := Option.some.inj ((get?_of_find? hi).symm.trans (get?_of_find? hi'))
  have hsame : u.find? bytes tag = u.find? bytes tag' := by
    rw [find?, find?, ht.key_eq hi hi']
  exact Option.some.inj (hj.symm.trans (hsame.trans hj'))

end UniqueTable

/-! ## Labels and symbols -/

variable {t u : Tables}

namespace Tables

/-- A vibrato has one curve. -/
theorem IsVibrato.unique {speed depth : UInt8} {bytes bytes' : List UInt8}
    (h : IsVibrato speed depth bytes) (h' : IsVibrato speed depth bytes') : bytes = bytes' := by
  obtain ⟨curve, log, after, hcurve, rfl⟩ := h
  obtain ⟨curve', log', after', hcurve', rfl⟩ := h'
  have hsame := Curve.encode_log (Curve.vibrato speed depth) ⟨false, true⟩ log log'
  rw [hcurve, hcurve'] at hsame
  rw [show curve = curve' from Except.ok.inj hsame]

end Tables

/-- Labels of the same data: one loop, or entries with the same bytes. -/
inductive Label.SameData (t u : Tables) : Label → Label → Prop
  | loop (song : Nat) (channel : String) :
      SameData t u (.streamLoop song channel) (.streamLoop song channel)
  | envelope {i j : Nat} {bytes : List UInt8} : t.curves.get? i = some bytes →
      u.curves.get? j = some bytes → SameData t u (.envelope i) (.envelope j)
  | groove {i j : Nat} {bytes : List UInt8} : t.grooves.get? i = some bytes →
      u.grooves.get? j = some bytes → SameData t u (.groove i) (.groove j)

/-- Labels that take each other's place. -/
inductive Label.Corresponds (t u : Tables) : Label → Label → Prop
  | loop {song : Nat} {channel : String} : (Label.streamLoop song channel).Named →
      Corresponds t u (.streamLoop song channel) (.streamLoop song channel)
  | envelope {i j : Nat} : t.curves.Same u.curves i j → Corresponds t u (.envelope i) (.envelope j)
  | groove {i j : Nat} : t.grooves.Same u.grooves i j → Corresponds t u (.groove i) (.groove j)

namespace Label.Corresponds

variable {label label' other : Label}

theorem symm (h : label.Corresponds t u label') : label'.Corresponds u t label := by
  cases h with
  | loop hnamed => exact .loop hnamed
  | envelope hij => exact .envelope hij.symm
  | groove hij => exact .groove hij.symm

theorem named (h : label.Corresponds t u label') : label.Named := by
  cases h with
  | loop hnamed => exact hnamed
  | _ => trivial

theorem sameData (h : label.Corresponds t u label') : label.SameData t u label' := by
  cases h with
  | loop => exact .loop _ _
  | envelope hij =>
    obtain ⟨bytes, hi, hj⟩ := hij.get?
    exact .envelope hi hj
  | groove hij =>
    obtain ⟨bytes, hi, hj⟩ := hij.get?
    exact .groove hi hj

theorem unique (hcurves : t.curves.Disjoint) (hgrooves : t.grooves.Disjoint)
    (h : label.Corresponds t u label') (h' : label.Corresponds t u other) : label' = other := by
  cases h with
  | loop hnamed =>
    cases h'
    rfl
  | envelope hij =>
    cases h' with
    | envelope hij' => rw [hij.unique hcurves hij']
  | groove hij =>
    cases h' with
    | groove hij' => rw [hij.unique hgrooves hij']

end Label.Corresponds

/-- Symbols of labels that take each other's place. -/
def SymbolsCorrespond (stem : String) (t u : Tables) (a b : Nat) : Prop :=
  ∃ label label' : Label, label.Corresponds t u label' ∧ t.number? (label.text stem) = some a ∧
    u.number? (label'.text stem) = some b

namespace SymbolsCorrespond

variable {stem : String} {a b c : Nat}

theorem symm (h : SymbolsCorrespond stem t u a b) : SymbolsCorrespond stem u t b a := by
  obtain ⟨label, label', hlabel, ha, hb⟩ := h
  exact ⟨label', label, hlabel.symm, hb, ha⟩

/-- **No symbol takes the place of two others.** -/
theorem unique (hcurves : t.curves.Disjoint) (hgrooves : t.grooves.Disjoint)
    (h : SymbolsCorrespond stem t u a b) (h' : SymbolsCorrespond stem t u a c) : b = c := by
  obtain ⟨label, label', hlabel, ha, hb⟩ := h
  obtain ⟨other, other', hother, ha', hc⟩ := h'
  have htext : label.text stem = other.text stem :=
    Option.some.inj ((Tables.name?_of_number? ha).symm.trans (Tables.name?_of_number? ha'))
  obtain rfl := Label.text_inj hlabel.named hother.named htext
  obtain rfl := hlabel.unique hcurves hgrooves hother
  exact Option.some.inj (hb.symm.trans hc)

end SymbolsCorrespond

/-- The second stream is the first one with other numbers of symbols, which name the same data. -/
def RenamedInto (stem : String) (t u : Tables) (tokens tokens' : List Token) : Prop :=
  ∃ ρ : Nat → Nat, tokens' = tokens.map (Token.rename ρ) ∧
    (∀ a ∈ symbolsOf tokens, ∀ b ∈ symbolsOf tokens, ρ a = ρ b → a = b) ∧
    ∀ a ∈ symbolsOf tokens, ∃ label label' : Label, label.SameData t u label' ∧
      t.symbols.name? a = some (label.text stem) ∧ u.symbols.name? (ρ a) = some (label'.text stem)

/-- Streams with corresponding symbols are renamed into each other, whatever the compression. -/
theorem renamedInto_apply {stem : String} {tokens tokens' : List Token} {k : Kernel}
    {opcode : UInt8} {c : Compression} (ht : t.curves.Disjoint ∧ t.grooves.Disjoint)
    (hu : u.curves.Disjoint ∧ u.grooves.Disjoint)
    (hpacks : Compressor.Packs k opcode (c.apply k tokens).1 tokens)
    (h : List.Forall₂ (Token.Renames (SymbolsCorrespond stem t u)) tokens tokens') :
    RenamedInto stem t u (c.apply k tokens).1 (c.apply k tokens').1 := by
  obtain ⟨ρ, rfl, hρ⟩ := exists_rename (fun _ _ _ hb hc => hb.unique ht.1 ht.2 hc) h
  have hsubset := hpacks.symbolsOf_subset
  refine ⟨ρ, by rw [Compression.apply_rename], fun a ha b hb hab => ?_, fun a ha => ?_⟩
  · have hsecond := (hρ b (hsubset hb)).symm
    rw [← hab] at hsecond
    exact (hρ a (hsubset ha)).symm.unique hu.1 hu.2 hsecond
  · obtain ⟨label, label', hlabel, hname, hname'⟩ := hρ a (hsubset ha)
    exact ⟨label, label', hlabel.sameData, Tables.name?_of_number? hname,
      Tables.name?_of_number? hname'⟩

/-! ## Streams of a channel -/

namespace Stream

variable {job : Job}

/-- Labels that mean the same for a channel take each other's place. -/
theorem SameLabel.corresponds {label label' : Label} (h : SameLabel job t u label label')
    (ht : t.Findable) (hu : u.Findable)
    (harpeggios : ∀ i ∈ job.arpeggios, t.curves.Same u.curves i i) :
    label.Corresponds t u label' := by
  cases h with
  | own howns =>
    cases label with
    | streamLoop song channel =>
      obtain ⟨rfl, rfl⟩ := howns
      exact .loop ⟨job.channel, rfl⟩
    | envelope i =>
      rcases howns with rfl | hi
      · exact .envelope ⟨_, _, ht.default, hu.default⟩
      · exact .envelope (harpeggios i hi)
    | _ => exact howns.elim
  | vibrato hi hj =>
    obtain ⟨bytes, hi, hvibrato⟩ := ht.vibratos _ _ hi
    obtain ⟨bytes', hj, hvibrato'⟩ := hu.vibratos _ _ hj
    obtain rfl := hvibrato.unique hvibrato'
    exact .envelope ⟨bytes, 0, hi, hj⟩
  | groove hmode hij =>
    simp only [SameGroove, hmode] at hij
    obtain ⟨bytes, hi, hj⟩ := hij
    exact .groove ⟨bytes, 0, hi, hj⟩

end Stream

/-! ## Selections -/

namespace Compile

variable {o : Options} {p : Project}

/-- The curve of an envelope is found at its index. -/
theorem addEnvelope_found {e : Option Envelope} {kind : EnvelopeKind} {kernel : Kernel}
    {t t' : Tables} {index : Nat} (ht : t.Findable)
    (h : t.addEnvelope e kind kernel = .ok (index, t')) :
    ∃ bytes tag, t'.curves.find? bytes tag = some index := by
  unfold Tables.addEnvelope at h
  split at h
  · cases h
    exact ⟨_, _, ht.default⟩
  · obtain ⟨⟨curve, log⟩, -, h⟩ := bind_ok h
    cases curve with
    | none =>
      cases h
      exact ⟨_, _, ht.default⟩
    | some bytes =>
      cases h
      exact ⟨_, _, UniqueTable.find?_intern ht.indexed _ _⟩

theorem addArpeggios_found {kernel : Kernel} {as : List Arpeggio} {t t' : Tables}
    {indices : List Nat} (ht : t.Findable) (h : addArpeggios kernel as t = .ok (indices, t')) :
    ∀ i ∈ indices, ∃ bytes tag, t'.curves.find? bytes tag = some i := by
  induction as generalizing t indices with
  | nil =>
    cases h
    simp
  | cons a rest ih =>
    obtain ⟨⟨index, u⟩, hindex, h⟩ := bind_ok h
    obtain ⟨⟨others, u'⟩, hothers, h⟩ := bind_ok h
    cases h
    have hu := (extends_addEnvelope hindex).findable ht
    refine List.forall_mem_cons.2 ⟨?_, ih hu hothers⟩
    obtain ⟨bytes, tag, hfound⟩ := addEnvelope_found ht hindex
    exact ⟨bytes, tag, (extends_addArpeggios hothers).found.find? hu.indexed _ _ _ hfound⟩

/-- The curves of the arpeggios are found at their indices before the songs. -/
theorem prepare_found {r : Prepared} (h : prepare o p = .ok r) :
    ∀ i ∈ r.arpeggios, ∃ bytes tag, r.tables.curves.find? bytes tag = some i := by
  obtain ⟨-, -, -, log, t, -, hinstruments, harpeggios⟩ := prepare_ok h
  have hlog : ({} : Tables).Extends { log } := Tables.extends_logging {} fun _ => log
  exact addArpeggios_found ((hlog.trans (extends_addInstruments hinstruments)).findable
    Tables.findable_default) harpeggios

/-- A song of two compiles that begin alike has the same streams in both, up to the numbers of
symbols. -/
theorem FromSong.renamed {r : Prepared} {song song' : SongData} {t t' : Tables}
    (h : FromSong o p r.slots r.arpeggios r.tables t song) (hr : prepare o p = .ok r)
    (h' : FromSong o p r.slots r.arpeggios r.tables t' song') (ht : r.tables.Extends t)
    (ht' : r.tables.Extends t') (hindex : song.index = song'.index) {j : Nat}
    {s : ChannelStream} (hs : song.streams[j]? = some s) :
    ∃ s', song'.streams[j]? = some s' ∧ s'.channel = s.channel ∧
      RenamedInto o.labelStem t t' (o.compression.apply o.kernel s.tokens).1
        (o.compression.apply o.kernel s'.tokens).1 := by
  have hstart := extends_prepare hr
  have hfindable := hstart.findable Tables.findable_default
  have hgrooves := hstart.grooves.indexed UniqueTable.indexed_empty
  have hdisjoint := hstart.grooves.disjoint UniqueTable.indexed_empty UniqueTable.disjoint_empty
  obtain ⟨source, patches, _, _, hsource, hpatches, hall⟩ := h.streams
  obtain ⟨source', patches', _, _, hsource', hpatches', hall'⟩ := h'.streams
  rw [← hindex] at hsource' hall'
  obtain rfl := Option.some.inj (hsource.symm.trans hsource')
  obtain rfl := songPatches_log hpatches hpatches'
  have hchannel : (song'.streams.map (·.channel))[j]? = some s.channel := by
    rw [h'.channels, ← h.channels, List.getElem?_map, hs]
    rfl
  rw [List.getElem?_map] at hchannel
  obtain ⟨s', hs', hchannel⟩ := Option.map_eq_some_iff.1 hchannel
  obtain ⟨u, u', hgenerate, hfrom, hto⟩ := hall s (List.mem_of_getElem? hs)
  obtain ⟨x, x', hgenerate', hfrom', hto'⟩ := hall' s' (List.mem_of_getElem? hs')
  rw [hchannel] at hgenerate'
  have hu := hfrom.grooves.indexed hgrooves
  have hx := hfrom'.grooves.indexed hgrooves
  have hrenames := Stream.generate_renames hu hx hgenerate hgenerate'
  have hu' := (Stream.extends_generate hgenerate).grooves.indexed hu
  have hx' := (Stream.extends_generate hgenerate').grooves.indexed hx
  -- what corresponds behind the channel still does in the tables of the compiles
  have hcorrespond := hrenames.imp fun _ _ => Token.Renames.mono fun a b hab => by
    obtain ⟨label, label', hlabel, ha, hb⟩ := hab.grow hto hto' hu' hx'
    refine show SymbolsCorrespond o.labelStem t t' a b from ⟨label, label', ?_, ha, hb⟩
    refine hlabel.corresponds (ht.findable hfindable) (ht'.findable hfindable) fun i hi => ?_
    obtain ⟨bytes, tag, hbytes⟩ := prepare_found hr i hi
    exact ⟨bytes, tag, ht.found.find? hfindable.indexed _ _ _ hbytes,
      ht'.found.find? hfindable.indexed _ _ _ hbytes⟩
  obtain ⟨opcode, hk⟩ := o.kernel.opcode_reference
  have hpacks := Compressor.apply_packs hk (Stream.generate_playable hgenerate).complete
    o.compression
  refine ⟨s', hs', hchannel, renamedInto_apply ⟨?_, ?_⟩ ⟨?_, ?_⟩ hpacks hcorrespond⟩
  · exact ht.found.disjoint hfindable.indexed hfindable.disjoint
  · exact ht.grooves.disjoint hgrooves hdisjoint
  · exact ht'.found.disjoint hfindable.indexed hfindable.disjoint
  · exact ht'.grooves.disjoint hgrooves hdisjoint

theorem getElem?_packed {song : SongData} {j : Nat} {s : ChannelStream}
    (hs : song.streams[j]? = some s) :
    (packed o song).streams[j]? = some (packStream o.kernel o.compression s).1 := by
  rw [packed, packSong, List.map_map, List.getElem?_map, hs]
  rfl

theorem getElem?_packedLayout {g : Generated} {i : Nat} {song : SongData}
    (h : g.songs[i]? = some song) : (packedLayout o p g).songs[i]? = some (packed o song) := by
  rw [packedLayout, Generated.layout, List.getElem?_map, h]
  rfl

/-- **A song has the same compressed streams in every selection.** Wherever two selections of one
project have a song, each of its channels has the same tokens in both compiles up to a renaming of
symbols, in which each symbol takes the place of one that names the same loop, or a curve or a
groove with the same bytes. -/
theorem compile_selections {a b : Option (List Nat)} {score score' : Score}
    (h : compile { o with songs := a } p = .ok score)
    (h' : compile { o with songs := b } p = .ok score') :
    ∃ g g' selected selected', generate { o with songs := a } p = .ok g ∧
      generate { o with songs := b } p = .ok g' ∧
      selectedSongs { o with songs := a } p = .ok selected ∧
      selectedSongs { o with songs := b } p = .ok selected' ∧
      ∀ (i i' index j : Nat) (channel : Channel), selected[i]? = some index →
        selected'[i']? = some index → p.channels[j]? = some channel →
        ∃ song song' s s', (packedLayout { o with songs := a } p g).songs[i]? = some song ∧
          (packedLayout { o with songs := b } p g').songs[i']? = some song' ∧
          song.streams[j]? = some s ∧ song'.streams[j]? = some s' ∧
          s.channel = channel ∧ s'.channel = channel ∧
          RenamedInto o.labelStem g.tables g'.tables s.tokens s'.tokens := by
  obtain ⟨g, lines, hg, -, -⟩ := compile_ok h
  obtain ⟨g', lines', hg', -, -⟩ := compile_ok h'
  obtain ⟨r, selected, songs, tables, hr, hselected, hsongs, rfl⟩ := generate_iff.1 hg
  obtain ⟨r', selected', songs', tables', hr', hselected', hsongs', rfl⟩ := generate_iff.1 hg'
  obtain rfl : r = r' := Except.ok.inj (hr.symm.trans hr')
  obtain ⟨hindices, hextends, hall⟩ := addSongs_ok hsongs
  obtain ⟨hindices', hextends', hall'⟩ := addSongs_ok hsongs'
  refine ⟨_, _, selected, selected', hg, hg', hselected, hselected',
    fun i i' index j channel hi hi' hj => ?_⟩
  rw [← hindices, List.getElem?_map] at hi
  rw [← hindices', List.getElem?_map] at hi'
  obtain ⟨song, hsong, hindex⟩ := Option.map_eq_some_iff.1 hi
  obtain ⟨song', hsong', hindex'⟩ := Option.map_eq_some_iff.1 hi'
  -- neither the channels of a song nor its jobs depend on the selection
  have hfrom : FromSong o p r.slots r.arpeggios r.tables tables song :=
    ⟨(hall song (List.mem_of_getElem? hsong)).channels,
      (hall song (List.mem_of_getElem? hsong)).streams⟩
  have hfrom' : FromSong o p r.slots r.arpeggios r.tables tables' song' :=
    ⟨(hall' song' (List.mem_of_getElem? hsong')).channels,
      (hall' song' (List.mem_of_getElem? hsong')).streams⟩
  rw [← hfrom.channels, List.getElem?_map] at hj
  obtain ⟨s, hs, hchannel⟩ := Option.map_eq_some_iff.1 hj
  obtain ⟨s', hs', hchannel', hrenamed⟩ :=
    hfrom.renamed hr hfrom' hextends hextends' (hindex.trans hindex'.symm) hs
  refine ⟨packed o song, packed o song', (packStream o.kernel o.compression s).1,
    (packStream o.kernel o.compression s').1, ?_, ?_, getElem?_packed hs, getElem?_packed hs',
    hchannel, hchannel'.trans hchannel, hrenamed⟩
  · exact getElem?_packedLayout hsong
  · exact getElem?_packedLayout hsong'

/-- A project with two tunes that loop. -/
def twoTunes : Project := { shortTune with songs := shortTune.songs ++ shortTune.songs }

theorem generate_second : ∃ g, generate { songs := some [1] } twoTunes = .ok g ∧
    assembles (packedLayout { songs := some [1] } twoTunes g) = true :=
  exists_generated rfl (by decide +kernel)

theorem generate_both : ∃ g, generate { songs := some [0, 1] } twoTunes = .ok g ∧
    assembles (packedLayout { songs := some [0, 1] } twoTunes g) = true :=
  exists_generated rfl (by decide +kernel)

/-- The second tune has the same stream on the first channel, alone and behind the first tune. -/
theorem compile_selections_twoTunes : ∃ score score' g g' s s',
    compile { songs := some [1] } twoTunes = .ok score ∧
    compile { songs := some [0, 1] } twoTunes = .ok score' ∧
    ((packedLayout { songs := some [1] } twoTunes g).songs[0]?.bind fun song =>
      song.streams[0]?) = some s ∧
    ((packedLayout { songs := some [0, 1] } twoTunes g').songs[1]?.bind fun song =>
      song.streams[0]?) = some s' ∧
    RenamedInto "" g.tables g'.tables s.tokens s'.tokens := by
  obtain ⟨g, hg, hassembles⟩ := generate_second
  obtain ⟨g', hg', hassembles'⟩ := generate_both
  obtain ⟨score, hscore⟩ := compile_succeeds hg hassembles
  obtain ⟨score', hscore'⟩ := compile_succeeds hg' hassembles'
  obtain ⟨_, _, selected, selected', -, -, hselected, hselected', hall⟩ :=
    compile_selections (o := {}) hscore hscore'
  obtain rfl : [1] = selected := Except.ok.inj hselected
  obtain rfl : [0, 1] = selected' := Except.ok.inj hselected'
  obtain ⟨song, song', s, s', hsong, hsong', hs, hs', -, -, hrenamed⟩ :=
    hall 0 1 1 0 .square1 rfl rfl rfl
  refine ⟨score, score', _, _, s, s', hscore, hscore', ?_, ?_, hrenamed⟩
  · rw [hsong]
    exact hs
  · rw [hsong']
    exact hs'

end Compile

end Chiptune
