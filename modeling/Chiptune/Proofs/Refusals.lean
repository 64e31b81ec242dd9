import Chiptune.Proofs.ReadyRows
import Chiptune.Proofs.Selections

/-!
# Why data is not generated

A project that cannot be played is refused with a reason that names what is wrong with it
(`Error.isRefusal`). No other error comes from generating its data, but for one: the list of the
rows of a song can take more room than any memory has (`Song.IsHuge`), which is at most twice what
they need (`Song.IsHuge.lt_rows`).

* `Refuses`: the steps whose errors are of these two kinds, with the rules to compose them.
* `Voice.processRow_refuses`, `generate_refuses`: **a row and a stream are refused, and never meet a
  fault**. A stream has tokens once its rows are processed, since all that they send can be written.
* `Compile.generate_refuses`: **what is generated from a project is refused, or too large**.
-/

set_option autoImplicit false

namespace Chiptune

/-! ## Refusals -/

/-- Whether an error tells what is wrong with a project, its options or its size. -/
def Error.isRefusal : Error → Bool
  | unsupportedInstrument .. | missingInstrument _ | missingArpeggio _ | missingSample _
  | missingPattern .. | expansionDisabled .. | unsupportedExpansion .. | addressOverflow _
  | invalidSampleBase _ | noSongs | invalidSong _ => true
  | json _ | unresolvedSymbol _ | io | fault _ => false

/-- **A step that is refused or asks for too much memory**, the latter only for a reason. -/
def Refuses {α : Type} (reason : Prop) (x : Except Error α) : Prop :=
  ∀ e, x = .error e → e.isRefusal = true ∨ e = .fault .memory ∧ reason

namespace Refuses

variable {α β : Type} {reason reason' : Prop}

theorem ok (a : α) : Refuses reason (.ok a) := fun _ h => by cases h

theorem error {e : Error} (h : e.isRefusal = true) : Refuses (α := α) reason (.error e) :=
  fun _ he => by
    cases he
    exact .inl h

theorem bind {x : Except Error α} {f : α → Except Error β} (hx : Refuses reason x)
    (hf : ∀ a, x = .ok a → Refuses reason (f a)) : Refuses reason (x >>= f) := by
  intro e he
  cases x with
  | error =>
    cases he
    exact hx _ rfl
  | ok a => exact hf a rfl e he

theorem mono {x : Except Error α} (hx : Refuses reason x) (h : reason → reason') :
    Refuses reason' x := fun e he => (hx e he).imp_right fun ⟨hmemory, hr⟩ => ⟨hmemory, h hr⟩

theorem map {x : Except Error α} (hx : Refuses reason x) (f : α → β) :
    Refuses reason (x.map f) := by
  intro e he
  cases x with
  | error =>
    cases he
    exact hx _ rfl
  | ok a => cases he

theorem foldlM {f : β → α → Except Error β} {xs : List α}
    (h : ∀ x ∈ xs, ∀ b, Refuses reason (f b x)) (b : β) : Refuses reason (xs.foldlM f b) := by
  induction xs generalizing b with
  | nil => exact ok b
  | cons x xs ih =>
    rw [List.foldlM_cons]
    exact (h x List.mem_cons_self b).bind fun c _ =>
      ih (fun y hy => h y (List.mem_cons_of_mem _ hy)) c

end Refuses

/-! ## Rows of a song -/

namespace Song

variable (s : Song)

/-- Room of the list of rows behind the positions before a given one. -/
def roomBefore : Nat → Nat
  | 0 => 0
  | position + 1 => Capacity.grown (roomBefore position) (s.rowsBefore (position + 1))

/-- The list of the rows of a song takes more room than any memory has. -/
def IsHuge : Prop := Capacity.maxBytes < rowBytes * s.roomBefore s.length

theorem rowsBefore_succ (position : Nat) :
    s.rowsBefore (position + 1) = s.rowsBefore position + s.positionLength position := by
  rw [rowsBefore, List.range_succ, List.map_append, List.sum_append]
  rfl

theorem rowsBefore_mono {m n : Nat} (h : m ≤ n) : s.rowsBefore m ≤ s.rowsBefore n := by
  induction n, h using Nat.le_induction with
  | base => exact Nat.le_refl _
  | succ n _ ih =>
    rw [rowsBefore_succ]
    exact Nat.le_trans ih (Nat.le_add_right _ _)

theorem roomBefore_mono {m n : Nat} (h : m ≤ n) : s.roomBefore m ≤ s.roomBefore n := by
  induction n, h using Nat.le_induction with
  | base => exact Nat.le_refl _
  | succ n _ ih => exact Nat.le_trans ih (Capacity.le_grown _ _)

/-- Apart from the least room, a list has room for at most twice its rows. -/
theorem roomBefore_le (position : Nat) :
    s.roomBefore position ≤ max 4 (2 * s.rowsBefore position) := by
  induction position with
  | zero => exact Nat.zero_le _
  | succ position ih =>
    have hle := s.rowsBefore_mono (Nat.le_add_right position 1)
    rw [roomBefore, Capacity.grown]
    split <;> omega

/-- The rows of a huge song, taken twice, are more than any memory holds. -/
theorem IsHuge.lt_rows (h : s.IsHuge) : Capacity.maxBytes < rowBytes * (2 * s.rowCount) := by
  have hle := s.roomBefore_le s.length
  unfold IsHuge at h
  simp only [Capacity.maxBytes, rowBytes, rowCount] at *
  omega

theorem length_rowsOf (position : Nat) (cells : List Note) :
    (s.rowsOf position cells).length = s.positionLength position := by
  simp [rowsOf]

/-- Every list of rows on the way is one of the first rows of the song. -/
theorem rowsFrom_refuses (track : Option Track) (count position : Nat) (done : Array Row)
    (hdone : done.size = s.rowsBefore position) (hle : position + count ≤ s.length) :
    Refuses s.IsHuge (s.rowsFrom track count position (s.roomBefore position) done) := by
  induction count generalizing position done with
  | zero => exact .ok done
  | succ count ih =>
    have hnext := s.rowsBefore_succ position
    have hroom : Capacity.grown (s.roomBefore position)
        (done.size + s.positionLength position) = s.roomBefore (position + 1) := by
      rw [hdone, ← hnext]
      rfl
    rw [rowsFrom, Capacity.reserve_eq, hroom]
    split
    · rename_i fault hreserve
      intro e he
      cases he
      split at hreserve
      · rename_i hlt
        cases hreserve
        exact .inr ⟨rfl, Nat.lt_of_lt_of_le hlt
          (Nat.mul_le_mul_left _ (s.roomBefore_mono (by omega)))⟩
      · cases hreserve
    rename_i room hreserve
    obtain rfl : s.roomBefore (position + 1) = room := by
      split at hreserve
      · cases hreserve
      · exact Except.ok.inj hreserve
    split
    · rename_i e hcells
      refine .error ?_
      unfold cellsAt at hcells
      split at hcells
      · cases hcells
      split at hcells
      · cases hcells
      split at hcells
      · cases hcells
      · cases hcells
        rfl
    · refine ih (position + 1) _ ?_ (by omega)
      rw [hnext, size_appendList, hdone, length_rowsOf]

theorem rows_refuses (track : Option Track) : Refuses s.IsHuge (s.rows track) :=
  (s.rowsFrom_refuses track s.length 0 #[] rfl (by omega)).map _

theorem speeds_refuses (count : Nat) : Refuses s.IsHuge (s.speeds count) :=
  .foldlM (fun track _ _ => (s.rows_refuses (some track)).bind fun _ _ => .ok _) _

end Song

/-! ## Streams -/

namespace Stream

variable {job : Job} {rows : List Row} {speeds : List (Option UInt8)} {loopAt : Option Nat}

/-- A step of a voice that is refused, if it fails. -/
def RowRefuses {α : Type} (x : Except (Error × Voice) α) : Prop :=
  ∀ e v, x = .error (e, v) → e.isRefusal = true

namespace RowRefuses

variable {α β : Type}

theorem ok (a : α) : RowRefuses (.ok a) := fun _ _ h => by cases h

theorem bind {x : Except (Error × Voice) α} {f : α → Except (Error × Voice) β}
    (hx : RowRefuses x) (hf : ∀ a, RowRefuses (f a)) : RowRefuses (x >>= f) := by
  intro e v he
  cases x with
  | error =>
    cases he
    exact hx e v rfl
  | ok a => exact hf a e v he

end RowRefuses

namespace Voice

/-- A step that is refused also is if the state before it is kept. -/
theorem attempt_refuses {α : Type} (v : Voice) {step : Except Error α}
    (h : ∀ e, step = .error e → e.isRefusal = true) : RowRefuses (v.attempt id step) := by
  intro e u he
  cases step with
  | error =>
    cases he
    exact h _ rfl
  | ok a => cases he

/-- Every vibrato has a curve, so that the continuous settings can always be sent. -/
theorem syncContinuous_succeeds (v : Voice) (job : Job) : ∃ u, v.syncContinuous job = .ok u := by
  have hvibrato : ∀ v : Voice, ∃ u, v.syncVibrato job = .ok u := by
    intro v
    unfold syncVibrato
    simp only
    split
    · exact ⟨_, rfl⟩
    split
    · split
      · exact bind_succeeds (v.tables.vibrato_succeeds _) fun _ => ⟨_, rfl⟩
      · exact ⟨_, rfl⟩
    · exact ⟨_, rfl⟩
  exact bind_succeeds (hvibrato _) fun _ => ⟨_, rfl⟩

theorem attempt_syncContinuous_refuses (v : Voice) (job : Job) :
    RowRefuses (v.attempt .fault (v.syncContinuous job)) := by
  obtain ⟨u, hu⟩ := v.syncContinuous_succeeds job
  rw [hu]
  exact .ok u

theorem syncInstrument_refuses {v : Voice} {note : Note} {row : Nat} {e : Error}
    (h : v.syncInstrument job note row = .error e) : e.isRefusal = true := by
  unfold syncInstrument at h
  split at h
  · cases h
  simp only at h
  split at h
  · cases h
  split at h
  · cases h
    rfl
  split at h
  · cases h
    rfl
  split at h
  · cases h
    rfl
  split at h <;> cases h

theorem syncArpeggio_refuses {v : Voice} {note : Note} {e : Error}
    (h : v.syncArpeggio job note = .error e) : e.isRefusal = true := by
  unfold syncArpeggio at h
  simp only at h
  split at h
  · split at h
    · cases h
      rfl
    split at h
    · cases h
    split at h
    · cases h
    split at h <;> cases h
  · split at h
    · cases h
    split at h <;> cases h

/-- The mapping of a note is where it was found. -/
theorem sampleNote_refuses {v : Voice} {value : UInt8} {e : Error}
    (h : v.sampleNote job value = .error e) : e.isRefusal = true := by
  unfold sampleNote at h
  split at h
  · cases h
  rename_i index hfind
  obtain ⟨hlt, -⟩ := List.findIdx?_eq_some_iff_getElem.1 hfind
  rw [List.getElem?_eq_getElem hlt] at h
  simp only at h
  split at h
  · cases h
    rfl
  split at h <;> cases h

theorem playValue_refuses (v : Voice) (job : Job) (index : Nat) (row : Row) (rest : List Row)
    (note : Note) : RowRefuses (v.playValue job index row rest note) := by
  have hcontinuous := fun v => attempt_syncContinuous_refuses v job
  unfold playValue
  split
  · split
    · exact (hcontinuous v).bind fun u => attempt_refuses _ fun _ => sampleNote_refuses
    · refine .bind (attempt_refuses v fun _ => syncInstrument_refuses) fun u => ?_
      refine .bind (attempt_refuses u fun _ => syncArpeggio_refuses) fun w => ?_
      exact (hcontinuous w).bind fun _ => .ok _
  · exact (hcontinuous v).bind fun _ => .ok _
  · refine (hcontinuous v).bind fun u => ?_
    split <;> exact .ok _
  · exact (hcontinuous v).bind fun _ => .ok _

/-- **A row that fails is refused.** -/
theorem processRow_refuses (v : Voice) (job : Job) (index : Nat) (row : Row)
    (speed : Option UInt8) (rest : List Row) :
    RowRefuses (v.processRow job index row speed rest) := by
  unfold processRow
  simp only
  split
  · exact .ok _
  · exact (playValue_refuses _ _ _ _ _ _).bind fun _ => .ok _

end Voice

theorem runRows_refuses (index : Nat) (rest : List Row) (later : List (Option UInt8))
    (done : List Piece) (v : Voice) :
    RowRefuses (runRows job rows speeds loopAt index rest later done v) := by
  induction rest generalizing index later done v with
  | nil => exact .ok _
  | cons row rest ih =>
    rw [runRows]
    split
    · rename_i stopped hrow
      intro e u he
      cases he
      have hrefuses : RowRefuses
          (runRow job rows speeds loopAt index row later.head?.join rest v) := by
        unfold runRow
        split
        exact (Voice.processRow_refuses _ _ _ _ _ _).bind fun _ => .ok _
      exact hrefuses e u hrow
    · exact ih _ _ _ _

/-- **A stream that is not generated is refused, or its rows are too many.** No instruction of its
rows is without an encoding. -/
theorem generate_refuses (hslots : job.slots.Bounded) {t : Tables} (hb : t.Backs job.arpeggios) :
    Refuses job.song.IsHuge (generate job t).1 := by
  unfold generate
  simp only
  split
  · rename_i e hrows
    have hrefuses := (job.song.rows_refuses (job.song.track job.channel)).bind fun rows _ =>
      (job.song.speeds_refuses rows.length).bind fun speeds _ => .ok (rows, speeds)
    intro e' he
    cases he
    exact hrefuses e hrows
  · rename_i rows speeds _
    split
    · rename_i e v hrun
      intro e' he
      cases he
      exact .inl (runRows_refuses _ _ _ _ _ _ _ hrun)
    · rename_i pieces v hrun
      obtain ⟨more, rfl, hruns⟩ := runs_of_runRows hrun
      obtain ⟨tokens, htokens⟩ := hruns.encodes hslots rfl (@ready_opening _ rows _ hb)
      rw [row_ending (hruns.row_eq rfl), htokens]
      exact .ok tokens

end Stream

/-! ## Songs -/

theorem PatchTimeline.build_refuses (p : Project) (song : Song) (log : Log) :
    Refuses song.IsHuge (PatchTimeline.build p song log) := by
  have hloads : Refuses song.IsHuge (loadsOf p song) :=
    .foldlM (fun channel _ _ => (song.rows_refuses (song.track channel)).bind fun _ _ => .ok _) _
  exact hloads.bind fun _ _ => .ok _

namespace Compile

variable {o : Options} {p : Project}

theorem checkTrack_refuses {reason : Prop} (p : Project) (song : Song) (log : Log) (t : Track) :
    Refuses reason (checkTrack p song log t) := by
  unfold checkTrack
  split
  · exact .ok _
  · simp only
    split
    · split
      · exact .ok _
      · exact .error rfl
    · exact .ok _

theorem songPatches_refuses (p : Project) (song : Song) (log : Log) :
    Refuses song.IsHuge (songPatches p song log) := by
  unfold songPatches
  split
  · exact (PatchTimeline.build_refuses p song log).bind fun _ _ => .ok _
  · exact .ok _

theorem addChannels_refuses (job : Channel → Stream.Job) {song : Song} {arpeggios : List Nat}
    (hsong : ∀ channel, (job channel).song = song)
    (harpeggios : ∀ channel, (job channel).arpeggios = arpeggios)
    (hslots : ∀ channel, (job channel).slots.Bounded) (channels : List Channel) {t : Tables}
    (hb : t.Backs arpeggios) : Refuses song.IsHuge (addChannels job channels t) := by
  induction channels generalizing t with
  | nil => exact .ok _
  | cons channel rest ih =>
    have hfirst := Stream.generate_refuses (hslots channel) ((harpeggios channel).symm ▸ hb)
    rw [hsong] at hfirst
    rw [addChannels]
    refine hfirst.bind fun tokens htokens => ?_
    have hextends := Stream.extends_generate (Prod.ext htokens rfl : Stream.generate _ t = (_, _))
    exact (ih (hb.mono hextends)).bind fun _ _ => .ok _

theorem addSong_refuses {slots : Slots} {arpeggios : List Nat} {index : Nat} {t : Tables}
    (hslots : slots.Bounded) (hb : t.Backs arpeggios) (hindex : index < p.songs.length) :
    Refuses (∃ song ∈ p.songs, song.IsHuge) (addSong o p slots arpeggios index t) := by
  have hreason : p.songs[index].IsHuge → ∃ song ∈ p.songs, song.IsHuge := fun h =>
    ⟨_, List.getElem_mem hindex, h⟩
  rw [addSong, List.getElem?_eq_getElem hindex]
  refine (Refuses.foldlM (fun t _ log => checkTrack_refuses p _ log t) _).bind fun log _ => ?_
  refine ((songPatches_refuses p _ log).mono hreason).bind fun patches _ => ?_
  have hlog := hb.mono (t.extends_logging fun _ => patches.2)
  have hchannels := addChannels_refuses
    (streamJob o p slots arpeggios index p.songs[index] patches.1) (fun _ => rfl) (fun _ => rfl)
    (fun _ => hslots) p.channels hlog
  refine (hchannels.mono hreason).bind fun streams _ => ?_
  simp only
  split <;> exact .ok _

theorem addSongs_refuses {slots : Slots} {arpeggios : List Nat} {indices : List Nat} {t : Tables}
    (hslots : slots.Bounded) (hb : t.Backs arpeggios)
    (hindices : ∀ index ∈ indices, index < p.songs.length) :
    Refuses (∃ song ∈ p.songs, song.IsHuge) (addSongs o p slots arpeggios indices t) := by
  induction indices generalizing t with
  | nil => exact .ok _
  | cons index rest ih =>
    rw [addSongs]
    refine (addSong_refuses hslots hb (hindices index List.mem_cons_self)).bind fun song hsong => ?_
    have hnext := hb.mono (addSong_ok hsong).2.1
    exact (ih hnext fun i hi => hindices i (List.mem_cons_of_mem _ hi)).bind fun _ _ => .ok _

/-! ## Checks of the whole project -/

theorem checkExpansions_refuses {reason : Prop} (kernel : Kernel) (p : Project) :
    Refuses reason (checkExpansions kernel p) := by
  unfold checkExpansions
  split
  · split
    · exact .ok _
    · exact .error rfl
  · exact .ok _

theorem selectedSongs_refuses {reason : Prop} (o : Options) (p : Project) :
    Refuses reason (selectedSongs o p) := by
  unfold selectedSongs
  simp only
  split
  · exact .error rfl
  split
  · exact .error rfl
  · exact .ok _

/-- Songs are selected only if the project has them. -/
theorem lt_of_selectedSongs {selected : List Nat} (h : selectedSongs o p = .ok selected) :
    ∀ index ∈ selected, index < p.songs.length := by
  unfold selectedSongs at h
  simp only at h
  split at h
  · cases h
  rename_i hnone
  split at h
  · cases h
  · cases h
    intro index hindex
    simpa using List.find?_eq_none.1 hnone index hindex

theorem checkMappings_refuses {reason : Prop} (p : Project) :
    Refuses reason (checkMappings p) := by
  unfold checkMappings
  split
  · exact .error rfl
  · exact .ok _

theorem checkSamples_refuses {reason : Prop} (p : Project) (base : UInt16) (log : Log) :
    Refuses reason (checkSamples p base log).1 := by
  have hfrom : ∀ (offset : Nat) (samples : List (Sample × Nat)) (log : Log),
      Refuses reason (checkSamplesFrom offset log samples).1 := by
    intro offset samples
    induction samples with
    | nil => exact fun _ => .ok _
    | cons x rest ih =>
      intro log
      obtain ⟨sample, start⟩ := x
      rw [checkSamplesFrom]
      split
      · exact .error rfl
      · exact ih _
  unfold checkSamples
  split
  · exact .ok _
  split
  · exact .error rfl
  · exact hfrom _ _ _

theorem faults_refuses {α : Type} {reason : Prop} {step : Except Fault α}
    (h : ∃ a, step = .ok a) : Refuses reason (faults step) := by
  obtain ⟨a, rfl⟩ := h
  exact .ok a

/-- The tables that the songs begin with have all that streams refer to. -/
theorem backs_prepare {r : Prepared} (h : prepare o p = .ok r) : r.tables.Backs r.arpeggios where
  sound := (extends_prepare h).sound Tables.sound_default
  curves := (extends_prepare h).found.indexed Tables.findable_default.indexed
  indexed := (extends_prepare h).grooves.indexed UniqueTable.indexed_empty
  arpeggios index hindex := by
    obtain ⟨bytes, tag, hfound⟩ := prepare_found h index hindex
    exact ⟨bytes, UniqueTable.get?_of_find? hfound⟩

/-- **What is generated from a project is refused, or some song is too large for any memory.** -/
theorem generate_refuses (o : Options) (p : Project) :
    Refuses (∃ song ∈ p.songs, song.IsHuge) (generate o p) := by
  have hsamples : Refuses (∃ song ∈ p.songs, song.IsHuge) (checkSamples p o.sampleBase {}).1 :=
    checkSamples_refuses p o.sampleBase {}
  have hbounded := Slots.bounded_assign p o.kernel (checkSamples p o.sampleBase {}).2
  have hprepare : ∀ r, prepare o p = .ok r → r.tables.Backs r.arpeggios := fun _ => backs_prepare
  unfold prepare at hprepare
  unfold generate
  generalize checkSamples p o.sampleBase {} = checked at *
  obtain ⟨checked, log⟩ := checked
  simp only at *
  generalize Slots.assign p o.kernel log = assigned at *
  obtain ⟨slots, log⟩ := assigned
  simp only at *
  refine (checkExpansions_refuses _ _).bind fun _ hexpansions => ?_
  refine (selectedSongs_refuses _ _).bind fun selected hselected => ?_
  refine (checkMappings_refuses _).bind fun _ hmappings => ?_
  refine hsamples.bind fun _ hchecked => ?_
  refine (faults_refuses (addInstruments_succeeds _ _ _ _ _ _)).bind fun added hinstruments => ?_
  refine (faults_refuses (addArpeggios_succeeds _ _ _)).bind fun named harpeggios => ?_
  have hb := hprepare ⟨slots, added.1, added.2.2, named.1, named.2⟩ (by
    simp only [hexpansions, hmappings, hchecked, hinstruments, harpeggios, bind, Except.bind])
  exact (addSongs_refuses hbounded hb (lt_of_selectedSongs hselected)).bind fun _ _ => .ok _

end Compile

end Chiptune
