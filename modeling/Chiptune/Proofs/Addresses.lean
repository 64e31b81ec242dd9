import Chiptune.Proofs.Placement

/-!
# Addresses of songs and streams

The last label of a name counts, so a song that was selected twice is played from its last record
(`Assembled.song_address`), whose streams are the last of their names
(`Assembled.stream_address`). The targets of a stream's references lie within the stream, as many
bytes behind its start as the tokens before them take.
-/

set_option autoImplicit false

namespace Chiptune

/-- Label that a stream defines; loops are told apart by their tokens. -/
def Label.InStream (song : Nat) (channel : String) : Label → Prop
  | stream n c | streamRef n c _ => n = song ∧ c = channel
  | streamLoop .. => True
  | _ => False

/-- Label that a stream defines from a token on. -/
def Label.Behind (song : Nat) (channel : String) (offset : Nat) : Label → Prop
  | streamRef n c o => n = song ∧ c = channel ∧ offset ≤ o
  | streamLoop .. => True
  | _ => False

/-- Label that does not belong to a stream. -/
def Label.Outside (song : Nat) (channel : String) : Label → Prop
  | stream n c | streamRef n c _ => n ≠ song ∨ c ≠ channel
  | _ => True

namespace Layout

variable (l : Layout)

/-- What an image holds whose listing is the layout's. -/
structure Assembled (tables : List Item) (image : Image) : Prop where
  holds : image.Holds l.dataBase (l.items tables) l.samples
  listed : l.AreTables tables
  tables : LabelsOnly l.stem Label.IsTable tables
  knows : ∀ song ∈ l.songs, ∀ s ∈ song.streams, ∀ token ∈ s.tokens, l.Knows token

/-- **The image of a layout holds its items.** -/
theorem assembled {lines : List Line} {image : Image} (h : l.lines = .ok lines)
    (himage : Image.assemble lines l.dataBase = .ok image) :
    ∃ tables, l.Assembled tables image := by
  obtain ⟨text, main, tables, rfl, hplain, hitems, hlisted, htables, hknows⟩ := l.lines_ok h
  have hholds := Image.assemble_ok hplain l.isSamples_samples himage
  rw [hitems] at hholds
  exact ⟨tables, hholds, hlisted, htables, hknows⟩

/-- The label tokens of a stream mark loops. -/
def MarksLoops (tokens : List Token) : Prop :=
  ∀ id, .label id ∈ tokens → ∃ (song : Nat) (channel : Channel),
    l.tables.symbols.name? id = some ((Label.streamLoop song channel.shortName).text l.stem)

variable {l}

theorem labels_targetItems (song : Nat) (channel : Channel) (targets : List Nat) (offset : Nat) :
    LabelsOnly l.stem (Label.Behind song channel.shortName offset)
      (l.targetItems song channel.shortName targets offset) := by
  unfold targetItems
  split
  · intro name hname
    cases List.mem_singleton.1 hname
    exact ⟨.streamRef song channel.shortName offset, ⟨channel, rfl⟩, ⟨rfl, rfl, Nat.le_refl _⟩, rfl⟩
  · intro name hname
    cases hname

theorem labels_tokenItem {song : Nat} {channel : String} {token : Token} {rest : List Token}
    {P : Label → Prop} (hP : ∀ n c, P (.streamLoop n c)) (hmarks : l.MarksLoops (token :: rest)) :
    LabelsOnly l.stem P [l.tokenItem song channel token] := by
  intro name hname
  have heq := List.mem_singleton.1 hname
  cases token with
  | label id =>
    obtain ⟨n, c, hc⟩ := hmarks id List.mem_cons_self
    simp only [tokenItem, hc, Option.getD_some, Item.label.injEq] at heq
    exact ⟨.streamLoop n c.shortName, ⟨c, rfl⟩, hP _ _, heq⟩
  | address target => cases target <;> cases heq
  | _ => cases heq

theorem labels_tokenItems {song : Nat} {channel : Channel} {targets : List Nat} {offset : Nat}
    {tokens : List Token} (hmarks : l.MarksLoops tokens) :
    LabelsOnly l.stem (Label.Behind song channel.shortName offset)
      (l.tokenItems song channel.shortName targets offset tokens) := by
  induction tokens generalizing offset with
  | nil =>
    intro name hname
    cases hname
  | cons token rest ih =>
    have hrest := @ih (offset + 1) fun id hid => hmarks id (List.mem_cons_of_mem _ hid)
    refine (labels_targetItems song channel targets offset).append
      ((labels_tokenItem (fun _ _ => trivial) hmarks).append (hrest.mono fun label hl => ?_))
    cases label with
    | streamRef n c o => exact ⟨hl.1, hl.2.1, Nat.le_of_succ_le hl.2.2⟩
    | streamLoop => trivial
    | _ => exact hl.elim

theorem labels_streamItems {song : Nat} {s : ChannelStream} (hmarks : l.MarksLoops s.tokens) :
    LabelsOnly l.stem (Label.InStream song s.channel.shortName) (l.streamItems song s) := by
  intro name hname
  rcases List.mem_cons.1 hname with heq | hname
  · cases heq
    exact ⟨.stream song s.channel.shortName, ⟨s.channel, rfl⟩, ⟨rfl, rfl⟩, rfl⟩
  · refine (labels_tokenItems hmarks).mono (fun label hl => ?_) name hname
    cases label with
    | streamRef n c o => exact ⟨hl.1, hl.2.1⟩
    | streamLoop => trivial
    | _ => exact hl.elim

theorem labels_songItems {song : SongData} (hmarks : ∀ s ∈ song.streams, l.MarksLoops s.tokens) :
    LabelsOnly l.stem (fun label => ∃ s ∈ song.streams,
      label.InStream song.index s.channel.shortName) (l.songItems song) :=
  .flatMap fun s hs => (labels_streamItems (hmarks s hs)).mono fun _ hl => ⟨s, hs, hl⟩

theorem labels_recordItems (song : SongData) :
    LabelsOnly l.stem (· = .song song.index) (l.recordItems song) := by
  intro name hname
  rcases List.mem_cons.1 hname with heq | hname
  · cases heq
    exact ⟨.song song.index, trivial, rfl, rfl⟩
  · simp at hname

theorem sizeOf_tokenItem (song : Nat) (channel : String) (token : Token) :
    (l.tokenItem song channel token).size = token.byteSize := by
  cases token with
  | address target => cases target <;> rfl
  | _ => rfl

theorem sizeOf_targetItems (song : Nat) (channel : String) (targets : List Nat) (offset : Nat) :
    Image.sizeOf (l.targetItems song channel targets offset) = 0 := by
  unfold targetItems
  split <;> simp [Item.size]

theorem sizeOf_tokenItems (song : Nat) (channel : String) (targets : List Nat) (offset : Nat)
    (tokens : List Token) :
    Image.sizeOf (l.tokenItems song channel targets offset tokens) = byteSize tokens := by
  induction tokens generalizing offset with
  | nil => rfl
  | cons token rest ih =>
    rw [tokenItems, Image.sizeOf_append, sizeOf_targetItems, Image.sizeOf_cons, sizeOf_tokenItem,
      ih, Nat.zero_add, byteSize]

theorem sizeOf_streamItems (song : Nat) (s : ChannelStream) :
    Image.sizeOf (l.streamItems song s) = byteSize s.tokens := by
  rw [streamItems, Image.sizeOf_cons, sizeOf_tokenItems]
  exact Nat.zero_add _

/-- The label of a target stands before its token. -/
theorem tokenItems_split (song : Nat) {channel : Channel} {targets : List Nat} {target : Nat}
    (hmem : target ∈ targets) {offset : Nat} {tokens : List Token} (hle : offset ≤ target)
    (hlt : target < offset + tokens.length) (hmarks : l.MarksLoops tokens) :
    ∃ front back, l.tokenItems song channel.shortName targets offset tokens =
        front ++ .label ((Label.streamRef song channel.shortName target).text l.stem) :: back ∧
      Image.sizeOf front = byteSize (tokens.take (target - offset)) ∧
      LabelsOnly l.stem (Label.Behind song channel.shortName (target + 1)) back := by
  induction tokens generalizing offset with
  | nil =>
    simp only [List.length_nil] at hlt
    omega
  | cons token rest ih =>
    have hrest : l.MarksLoops rest := fun id hid => hmarks id (List.mem_cons_of_mem _ hid)
    rw [tokenItems]
    rcases Nat.eq_or_lt_of_le hle with rfl | hle
    · have htarget : l.targetItems song channel.shortName targets offset =
          [.label ((Label.streamRef song channel.shortName offset).text l.stem)] := by
        rw [targetItems, if_pos (by simpa using hmem)]
      exact ⟨[], _, by rw [htarget]; rfl, by simp [byteSize],
        (labels_tokenItem (fun _ _ => trivial) hmarks).append (labels_tokenItems hrest)⟩
    · obtain ⟨front, back, hitems, hsize, hback⟩ :=
        @ih (offset + 1) hle (by simp only [List.length_cons] at hlt; omega) hrest
      refine ⟨l.targetItems song channel.shortName targets offset ++
        l.tokenItem song channel.shortName token :: front, back, ?_, ?_, hback⟩
      · rw [hitems]
        simp
      · obtain ⟨n, hn⟩ : ∃ n, target - offset = n + 1 := ⟨target - (offset + 1), by omega⟩
        rw [Image.sizeOf_append, sizeOf_targetItems, Image.sizeOf_cons, hsize, sizeOf_tokenItem, hn,
          List.take_succ_cons, byteSize, show target - (offset + 1) = n by omega, Nat.zero_add]

/-- Every stream of the layout only marks loops. -/
def StreamsMarkLoops (l : Layout) : Prop :=
  ∀ song ∈ l.songs, ∀ s ∈ song.streams, l.MarksLoops s.tokens

variable {tables : List Item} {image : Image} {A B : List SongData} {song : SongData}

/-- **The last record of a song is what its label stands for.** -/
theorem Assembled.song_address (h : l.Assembled tables image) (hmarks : l.StreamsMarkLoops)
    (hsongs : l.songs = A ++ song :: B) (hlast : ∀ b ∈ B, b.index ≠ song.index) :
    ∃ before after address, l.items tables = before ++ (l.recordItems song ++ after) ∧
      image.address ((Label.song song.index).text l.stem) = some address ∧
      address.toNat = l.dataBase.toNat + Image.sizeOf before := by
  have hsplit : l.songs.flatMap l.recordItems =
      A.flatMap l.recordItems ++ (l.recordItems song ++ B.flatMap l.recordItems) := by
    rw [hsongs, List.flatMap_append, List.flatMap_cons]
  have hitems : l.items tables =
      (l.headerItems ++ ((l.songs.map fun song => .word (l.labelWord (.song song.index))) ++
        A.flatMap l.recordItems)) ++ (l.recordItems song ++
        (B.flatMap l.recordItems ++ (tables ++ l.songs.flatMap l.songItems))) := by
    rw [items, hsplit]
    simp only [List.append_assoc]
  -- nothing behind the record defines the label again
  have hafter : LabelsOnly l.stem (· ≠ .song song.index)
      (B.flatMap l.recordItems ++ (tables ++ l.songs.flatMap l.songItems)) := by
    refine .append (.flatMap fun b hb => (labels_recordItems b).mono fun label hl => ?_)
      (.append (h.tables.mono fun label hl => ?_)
        (.flatMap fun b hb => (labels_songItems (hmarks b hb)).mono fun label hl => ?_))
    · rw [hl]
      exact fun he => hlast b hb (Label.song.inj he)
    · rintro rfl
      exact hl
    · rintro rfl
      obtain ⟨s, -, hs⟩ := hl
      exact hs
  obtain ⟨address, haddress, hat⟩ := h.holds.located _ _ _ hitems
    (fun hmem => (List.mem_append.1 hmem).elim (by simp)
      (hafter.notMem trivial fun hne => hne rfl))
    (l.notMem_samples trivial (by simp))
  exact ⟨_, _, address, hitems, haddress, hat⟩

/-- Nothing behind the last stream of a channel defines its labels again. -/
theorem labels_behind (hmarks : l.StreamsMarkLoops) (hsongs : l.songs = A ++ song :: B)
    (hlast : ∀ b ∈ B, b.index ≠ song.index) {C D : List ChannelStream} {s : ChannelStream}
    (hstreams : song.streams = C ++ s :: D)
    (hother : ∀ d ∈ D, d.channel.shortName ≠ s.channel.shortName) :
    LabelsOnly l.stem (Label.Outside song.index s.channel.shortName)
      (D.flatMap (l.streamItems song.index) ++ B.flatMap l.songItems) := by
  refine .append (.flatMap fun d hd => ?_) (.flatMap fun b hb => ?_)
  · have hmarks := hmarks song (by simp [hsongs]) d (by simp [hstreams, hd])
    refine (labels_streamItems hmarks).mono fun label hl => ?_
    cases label with
    | stream n c => exact .inr (hl.2 ▸ hother d hd)
    | streamRef n c o => exact .inr (hl.2 ▸ hother d hd)
    | _ => trivial
  · refine (labels_songItems (hmarks b (by simp [hsongs, hb]))).mono fun label hl => ?_
    obtain ⟨s', -, hl⟩ := hl
    cases label with
    | stream n c => exact .inl (hl.1 ▸ hlast b hb)
    | streamRef n c o => exact .inl (hl.1 ▸ hlast b hb)
    | _ => trivial

/-- **The streams of the last record of a song are what their labels stand for**, and so are the
targets in them. -/
theorem Assembled.stream_address (h : l.Assembled tables image) (hmarks : l.StreamsMarkLoops)
    (hsongs : l.songs = A ++ song :: B) (hlast : ∀ b ∈ B, b.index ≠ song.index)
    {C D : List ChannelStream} {s : ChannelStream} (hstreams : song.streams = C ++ s :: D)
    (hother : ∀ d ∈ D, d.channel.shortName ≠ s.channel.shortName) :
    ∃ before after address, l.items tables = before ++ (l.streamItems song.index s ++ after) ∧
      image.address ((Label.stream song.index s.channel.shortName).text l.stem) = some address ∧
      address.toNat = l.dataBase.toNat + Image.sizeOf before ∧
      ∀ target ∈ targets s.tokens, target < s.tokens.length →
        ∃ there, image.address
            ((Label.streamRef song.index s.channel.shortName target).text l.stem) = some there ∧
          there.toNat = address.toNat + byteSize (s.tokens.take target) := by
  have hsong : song ∈ l.songs := by simp [hsongs]
  have hs : s ∈ song.streams := by simp [hstreams]
  have hsplit : l.songs.flatMap l.songItems = A.flatMap l.songItems ++
      (C.flatMap (l.streamItems song.index) ++ (l.streamItems song.index s ++
        (D.flatMap (l.streamItems song.index) ++ B.flatMap l.songItems))) := by
    rw [hsongs, List.flatMap_append, List.flatMap_cons, songItems, hstreams, List.flatMap_append,
      List.flatMap_cons]
    simp only [List.append_assoc]
  let before := l.headerItems ++
    ((l.songs.map fun song => .word (l.labelWord (.song song.index))) ++
      (l.songs.flatMap l.recordItems ++ (tables ++ (A.flatMap l.songItems ++
        C.flatMap (l.streamItems song.index)))))
  let after := D.flatMap (l.streamItems song.index) ++ B.flatMap l.songItems
  have hitems : l.items tables = before ++ (l.streamItems song.index s ++ after) := by
    rw [items, hsplit]
    simp only [before, after, List.append_assoc]
  have hafter : LabelsOnly l.stem (Label.Outside song.index s.channel.shortName) after :=
    labels_behind hmarks hsongs hlast hstreams hother
  have htokens : LabelsOnly l.stem (Label.Behind song.index s.channel.shortName 0)
      (l.tokenItems song.index s.channel.shortName (targets s.tokens) 0 s.tokens) :=
    labels_tokenItems (hmarks song hsong s hs)
  obtain ⟨address, haddress, hat⟩ := h.holds.located before _ _ hitems
    (fun hmem => (List.mem_append.1 hmem).elim (htokens.notMem ⟨s.channel, rfl⟩ id)
      (hafter.notMem ⟨s.channel, rfl⟩ (by simp [Label.Outside])))
    (l.notMem_samples ⟨s.channel, rfl⟩ (by simp))
  refine ⟨before, after, address, hitems, haddress, hat, fun target htarget hlt => ?_⟩
  obtain ⟨front, back, hfront, hsize, hback⟩ := tokenItems_split song.index htarget
    (Nat.zero_le _) (by omega) (hmarks song hsong s hs)
  have hitems' : l.items tables = (before ++
      .label ((Label.stream song.index s.channel.shortName).text l.stem) :: front) ++
      .label ((Label.streamRef song.index s.channel.shortName target).text l.stem) ::
        (back ++ after) := by
    rw [hitems, streamItems, hfront]
    simp
  obtain ⟨there, hthere, hat'⟩ := h.holds.located _ _ _ hitems'
    (fun hmem => (List.mem_append.1 hmem).elim
      (hback.notMem ⟨s.channel, rfl⟩ fun hb => absurd hb.2.2 (by omega))
      (hafter.notMem ⟨s.channel, rfl⟩ (by simp [Label.Outside])))
    (l.notMem_samples ⟨s.channel, rfl⟩ (by simp))
  refine ⟨there, hthere, ?_⟩
  rw [hat', hat, Image.sizeOf_append, Image.sizeOf_cons, hsize]
  simp [Item.size, Nat.add_assoc]

end Layout

end Chiptune
