import Chiptune.Proofs.Sections

/-!
# Assembly in two passes

The first pass gives the labels of both sections their addresses (`Image.labelsOf`), the second one
writes the sections with the words in place (`Image.Realizes`). `Image.assemble` goes through the
lines once, and fills in the words that it left empty.

* `Image.fill_block`: filling in the words of both segments fills in those of each.
* `Image.assemble_two_pass`: **the image is the one of the two passes**, and there is none only if a
  section does not fit the address space or, if all do, a name is not defined.
-/

set_option autoImplicit false

namespace Chiptune.Image

/-! ## Filling in the words of both segments -/

variable {addresses : Std.HashMap String UInt16} {d d' : Draft}

/-- A word is put into the block of its segment. -/
structure Draft.Fills (d d' : Draft) (hole : Hole) (address : UInt16) : Prop where
  labels : d'.labels = d.labels
  blocks : ∀ s, d'.blockOf s =
    if hole.segment = s then
      { d.blockOf s with bytes := putWord (d.blockOf s).bytes hole.offset address }
    else d.blockOf s

/-- A word with an address is filled in, one without is refused. -/
theorem fillHole_eq (addresses : Std.HashMap String UInt16) (d : Draft) (hole : Hole) :
    (∃ address d', addresses[hole.label]? = some address ∧
      fillHole addresses d hole = .ok d' ∧ d.Fills d' hole address) ∨
    addresses[hole.label]? = none ∧
      fillHole addresses d hole = .error (.unresolvedSymbol hole.label) := by
  unfold fillHole
  cases addresses[hole.label]? with
  | none => exact .inr ⟨rfl, rfl⟩
  | some address =>
    refine .inl ⟨address, ?_⟩
    obtain ⟨segment, offset, label⟩ := hole
    cases segment with
    | music => exact ⟨_, rfl, rfl, rfl, fun s => by cases s <;> simp [Draft.blockOf]⟩
    | samples =>
      refine ⟨_, rfl, rfl, rfl, fun s => ?_⟩
      cases s with
      | music => simp [Draft.blockOf]
      | samples => cases hsamples : d.samples <;> simp [Draft.blockOf, hsamples, putWord]

/-- Either all empty words are filled in, or the first one without an address is refused. -/
theorem fill_or_unresolved (addresses : Std.HashMap String UInt16) (holes : List Hole) (d : Draft) :
    (∃ d', holes.foldlM (fillHole addresses) d = .ok d') ∨
      ∃ hole ∈ holes, addresses[hole.label]? = none ∧
        holes.foldlM (fillHole addresses) d = .error (.unresolvedSymbol hole.label) := by
  induction holes generalizing d with
  | nil => exact .inl ⟨d, rfl⟩
  | cons hole rest ih =>
    rw [List.foldlM_cons]
    rcases fillHole_eq addresses d hole with ⟨address, u, -, hu, -⟩ | ⟨hnone, herror⟩
    · rw [hu]
      rcases ih u with ⟨d', hd'⟩ | ⟨other, hother, hnone, herror⟩
      · exact .inl ⟨d', hd'⟩
      · exact .inr ⟨other, List.mem_cons_of_mem _ hother, hnone, herror⟩
    · exact .inr ⟨hole, List.mem_cons_self, hnone, by rw [herror]; rfl⟩

theorem labels_fill {holes : List Hole} (h : holes.foldlM (fillHole addresses) d = .ok d') :
    d'.labels = d.labels := by
  induction holes generalizing d with
  | nil =>
    cases h
    rfl
  | cons hole rest ih =>
    rw [List.foldlM_cons] at h
    obtain ⟨u, hu, hrest⟩ := bind_ok h
    rcases fillHole_eq addresses d hole with ⟨address, v, -, hv, hfills⟩ | ⟨-, herror⟩
    · obtain rfl := Except.ok.inj (hu.symm.trans hv)
      rw [ih hrest, hfills.labels]
    · cases hu.symm.trans herror

/-- **Filling in the words of both segments fills in those of each.** -/
theorem fill_block {holes : List Hole} (h : holes.foldlM (fillHole addresses) d = .ok d')
    (s : Segment) {v : Draft} (hv : v.music = d.blockOf s) :
    ∃ v', ((holes.filter (·.segment = s)).map fun hole => { hole with segment := .music }).foldlM
        (fillHole addresses) v = .ok v' ∧ v'.music = d'.blockOf s := by
  induction holes generalizing d v with
  | nil =>
    cases h
    exact ⟨v, rfl, hv⟩
  | cons hole rest ih =>
    rw [List.foldlM_cons] at h
    obtain ⟨u, hu, hrest⟩ := bind_ok h
    rcases fillHole_eq addresses d hole with ⟨address, w, haddress, hw, hfills⟩ | ⟨-, herror⟩
    · obtain rfl := Except.ok.inj (hu.symm.trans hw)
      have hblock := hfills.blocks s
      by_cases hs : hole.segment = s
      · rw [if_pos hs, ← hv] at hblock
        have hput : fillHole addresses v { hole with segment := .music } =
            .ok { v with music.bytes := putWord v.music.bytes hole.offset address } := by
          unfold fillHole
          rw [haddress]
        rw [List.filter_cons_of_pos (by simpa using hs), List.map_cons, List.foldlM_cons, hput]
        exact ih hrest hblock.symm
      · rw [if_neg hs] at hblock
        rw [List.filter_cons_of_neg (by simpa using hs)]
        exact ih hrest (hv.trans hblock.symm)
    · cases hu.symm.trans herror

/-! ## The passes -/

/-- The first pass: labels of the sections with their addresses. -/
def labelsOf (musicBase : UInt16) (lines : List Line) : List (String × Nat) :=
  [Segment.music, .samples].flatMap fun s =>
    labelsFrom (baseOf musicBase lines s).toNat (sectionOf musicBase lines s)

/-- A section ends inside of the address space, and so do its labels. -/
def Fits (musicBase : UInt16) (lines : List Line) (s : Segment) : Prop :=
  FitsFrom (baseOf musicBase lines s).toNat (sectionOf musicBase lines s)

instance (musicBase : UInt16) (lines : List Line) (s : Segment) :
    Decidable (Fits musicBase lines s) :=
  inferInstanceAs (Decidable (FitsFrom _ _))

/-- The second pass: an image has the labels of a listing at their addresses, and these in the words
of its sections. -/
structure Realizes (image : Image) (musicBase : UInt16) (lines : List Line) : Prop where
  labels : ∀ name, (image.address name).map UInt16.toNat = (labelsOf musicBase lines).lookup name
  resolved : ∀ s name, .word (.label name) ∈ sectionOf musicBase lines s →
    (image.address name).isSome = true
  music : image.music = bytesOf image.address (sectionOf musicBase lines .music)
  samples : image.samples = bytesOf image.address (sectionOf musicBase lines .samples)

theorem mem_labelsOf {musicBase : UInt16} {lines : List Line} {x : String × Nat} :
    x ∈ labelsOf musicBase lines ↔
      ∃ s, x ∈ labelsFrom (baseOf musicBase lines s).toNat (sectionOf musicBase lines s) := by
  rw [labelsOf, List.mem_flatMap]
  refine exists_congr fun s => and_iff_right ?_
  cases s <;> simp

theorem lookup_of_mem {labels : List (String × UInt16)} (hnodup : (labels.map Prod.fst).Nodup)
    {name : String} {address : UInt16} (h : (name, address) ∈ labels) :
    labels.lookup name = some address := by
  induction labels with
  | nil => cases h
  | cons e labels ih =>
    rw [List.map_cons, List.nodup_cons] at hnodup
    rw [List.lookup_cons]
    rcases List.mem_cons.1 h with rfl | h
    · simp
    · have hne : (name == e.1) = false := by
        rw [beq_eq_false_iff_ne]
        rintro rfl
        exact hnodup.1 (List.mem_map.2 ⟨_, h, rfl⟩)
      rw [hne]
      exact ih hnodup.2 h

/-- What is laid out from the first line on. -/
theorem startOf_first (musicBase : UInt16) (lines : List Line) (s : Segment) :
    Draft.startOf { music := { base := musicBase } } lines s =
      (baseOf musicBase lines s).toNat := by
  cases s <;> rfl

theorem itemsIn_first (musicBase : UInt16) (lines : List Line) (s : Segment) :
    Draft.itemsIn { music := { base := musicBase } } lines s = sectionOf musicBase lines s := by
  rw [Draft.itemsIn, startOf_first]
  rfl

theorem sound_first (musicBase : UInt16) : Draft.Sound { music := { base := musicBase } } where
  opened h := by cases h
  inside s := by
    have hlt := musicBase.toNat_lt
    cases s
    · simp only [Draft.blockOf, Block.stop, maxAddress, Array.size_empty]
      omega
    · simp [Draft.blockOf, Block.stop]

theorem map_holesOf (s : Segment) (offset : Nat) (items : List Item) :
    ((holesOf s offset items).map fun hole => { hole with segment := .music }) =
      holesFrom offset items := by
  rw [holesOf, List.map_map]
  induction items generalizing offset with
  | nil => rfl
  | cons i items ih =>
    cases i with
    | word w => cases w <;> simp [holesFrom, ih]
    | _ => exact ih _

/-- **The words of a section are filled in.** -/
theorem fill_section {musicBase : UInt16} {lines : List Line}
    (hd : Draft.Laid { music := { base := musicBase } } d lines)
    (hfill : d.holes.reverse.foldlM (fillHole addresses) d = .ok d') (s : Segment) :
    (d'.blockOf s).bytes.toList = bytesOf (addresses[·]?) (sectionOf musicBase lines s) ∧
      ∀ name, .word (.label name) ∈ sectionOf musicBase lines s →
        (addresses[name]?).isSome = true := by
  have hempty : (Draft.blockOf { music := { base := musicBase } } s).bytes = #[] := by
    cases s <;> rfl
  have hbytes := hd.bytes s
  have hholes := hd.holes s
  rw [hempty, itemsIn_first] at hbytes hholes
  obtain ⟨v, hv, hblock⟩ := fill_block hfill s (v := { music := d.blockOf s }) rfl
  rw [hholes, List.reverse_nil, List.filter_nil, List.nil_append, map_holesOf] at hv
  obtain ⟨hmusic, -, hresolved⟩ := @fill_ok _ _ [] _ _ hbytes hv
  exact ⟨hblock ▸ hmusic, hresolved⟩

/-- **A name is found at the address of its label.** -/
theorem lookup_labels {musicBase : UInt16} {lines : List Line}
    (hnames : (labelNames lines).Nodup) (hfits : ∀ s, Fits musicBase lines s)
    (hd : Draft.Laid { music := { base := musicBase } } d lines) (name : String) :
    (d.labels.lookup name).map UInt16.toNat = (labelsOf musicBase lines).lookup name := by
  have hmem : ∀ e, e ∈ d.labels ↔ ∃ x ∈ labelsOf musicBase lines, (x.1, UInt16.ofNat x.2) = e := by
    intro e
    rw [hd.labels]
    simp only [startOf_first, itemsIn_first, mem_labelsOf, List.not_mem_nil, false_or]
    exact ⟨fun ⟨s, x, hx, he⟩ => ⟨x, ⟨s, hx⟩, he⟩, fun ⟨x, ⟨s, hx⟩, he⟩ => ⟨s, x, hx, he⟩⟩
  have hnodup : (d.labels.map Prod.fst).Nodup := by
    rw [hd.names]
    simpa using hnames
  cases hlookup : (labelsOf musicBase lines).lookup name with
  | none =>
    rw [List.lookup_eq_none_iff.2, Option.map_none]
    intro e he
    obtain ⟨x, hx, rfl⟩ := (hmem e).1 he
    exact List.lookup_eq_none_iff.1 hlookup x hx
  | some address =>
    obtain ⟨front, back, hlabels, -⟩ := List.lookup_eq_some_iff.1 hlookup
    have hx : (name, address) ∈ labelsOf musicBase lines := by simp [hlabels]
    obtain ⟨s, hs⟩ := mem_labelsOf.1 hx
    have hle : address ≤ maxAddress := (hfits s).1 _ hs
    rw [lookup_of_mem hnodup ((hmem _).2 ⟨_, hx, rfl⟩), Option.map_some]
    exact congrArg some (UInt16.toNat_ofNat_of_lt' (Nat.lt_succ_of_le hle))

theorem isSome_lookup {musicBase : UInt16} {lines : List Line}
    (hd : Draft.Laid { music := { base := musicBase } } d lines) (name : String) :
    (d.labels.lookup name).isSome = true ↔ .label name ∈ lines := by
  have hkeys : name ∈ d.labels.map Prod.fst ↔ name ∈ labelNames lines := by
    rw [hd.names]
    simp
  rw [← mem_labelNames, ← hkeys, List.lookup_isSome_iff, List.mem_map]
  simp only [beq_iff_eq, @eq_comm _ name]

/-! ## Words of a listing -/

theorem mem_linesIn {line : Line} (hplain : ∀ s base, line ≠ .segment s base) {lines : List Line}
    (h : line ∈ lines) (current : Segment) : ∃ s, line ∈ linesIn s current lines := by
  induction lines generalizing current with
  | nil => cases h
  | cons first rest ih =>
    by_cases hfirst : ∀ s base, first ≠ .segment s base
    · have hcons : ∀ s, linesIn s current (first :: rest) =
          if current = s then first :: linesIn s current rest else linesIn s current rest :=
        fun s => linesIn_cons hfirst rest s current
      rcases List.mem_cons.1 h with rfl | h
      · exact ⟨current, by rw [hcons, if_pos rfl]; exact List.mem_cons_self⟩
      · obtain ⟨s, hs⟩ := ih h current
        refine ⟨s, ?_⟩
        rw [hcons]
        split
        · exact List.mem_cons_of_mem _ hs
        · exact hs
    · simp only [ne_eq, not_forall, not_not] at hfirst
      obtain ⟨next, base, rfl⟩ := hfirst
      rcases List.mem_cons.1 h with rfl | h
      · exact absurd rfl (hplain next base)
      · exact ih h next

theorem word_mem_itemsAt {ws : List Word} {w : Word} (hw : w ∈ ws) {lines : List Line}
    (h : .words ws ∈ lines) (address : Nat) : .word w ∈ itemsAt address lines := by
  induction lines generalizing address with
  | nil => cases h
  | cons line rest ih =>
    rw [itemsAt, List.mem_append]
    rcases List.mem_cons.1 h with rfl | h
    · exact .inl (List.mem_map_of_mem hw)
    · exact .inr (ih h _)

/-- Every word of a listing is in one of its sections. -/
theorem word_mem_sectionOf {lines : List Line} {ws : List Word} (h : .words ws ∈ lines) {w : Word}
    (hw : w ∈ ws) (musicBase : UInt16) : ∃ s, .word w ∈ sectionOf musicBase lines s := by
  obtain ⟨s, hs⟩ := mem_linesIn (by simp) h .music
  exact ⟨s, word_mem_itemsAt hw hs _⟩

/-! ## Outcomes -/

/-- **A listing whose words are filled in has the image of the two passes**, and defines the names
that it uses. -/
theorem realizes_of_fill {musicBase : UInt16} {lines : List Line}
    (hnames : (labelNames lines).Nodup) (hfits : ∀ s, Fits musicBase lines s)
    (hd : lines.foldlM Draft.addLine { music := { base := musicBase } } = .ok d)
    (hlaid : Draft.Laid { music := { base := musicBase } } d lines)
    (hfill : d.holes.reverse.foldlM (fillHole (.ofList d.labels.reverse)) d = .ok d') :
    Listing.IsClosed lines ∧
      ∃ image, assemble lines musicBase = .ok image ∧ image.Realizes musicBase lines := by
  have hlookup : (fun name => (Std.HashMap.ofList d.labels.reverse)[name]?) =
      fun name => d.labels.lookup name :=
    funext fun name => getElem?_ofList_reverse d.labels name
  have hsection := fill_section hlaid hfill
  simp only [hlookup] at hsection
  have hassemble : assemble lines musicBase = .ok ⟨d'.music.bytes.toList,
      ((d'.samples.map (·.bytes)).getD #[]).toList, d.labels⟩ := by
    unfold assemble
    rw [hd, ← labels_fill hfill]
    simp only [bind, Except.bind, hfill]
  refine ⟨fun ws hws name hname => ?_, _, hassemble, lookup_labels hnames hfits hlaid,
    fun s => (hsection s).2, (hsection .music).1, ?_⟩
  · obtain ⟨s, hs⟩ := word_mem_sectionOf hws hname musicBase
    exact (isSome_lookup hlaid name).1 ((hsection s).2 name hs)
  · refine Eq.trans ?_ (hsection .samples).1
    cases hsamples : d'.samples <;> simp [Draft.blockOf, hsamples]

/-- **A listing with an empty word that cannot be filled uses a name that it does not define.** -/
theorem unresolved_of_fill {musicBase : UInt16} {lines : List Line} {hole : Hole}
    (hd : lines.foldlM Draft.addLine { music := { base := musicBase } } = .ok d)
    (hlaid : Draft.Laid { music := { base := musicBase } } d lines)
    (hhole : hole ∈ d.holes.reverse)
    (hnone : (Std.HashMap.ofList d.labels.reverse)[hole.label]? = none)
    (hfill : d.holes.reverse.foldlM (fillHole (.ofList d.labels.reverse)) d =
      .error (.unresolvedSymbol hole.label)) :
    ∃ ws name, .words ws ∈ lines ∧ .label name ∈ ws ∧ .label name ∉ lines ∧
      assemble lines musicBase = .error (.unresolvedSymbol name) := by
  obtain ⟨ws, hws, hname⟩ := (Draft.tracks_lines (Draft.tracks_start musicBase) hd).holes hole
    (List.mem_reverse.1 hhole)
  refine ⟨ws, hole.label, hws, hname, ?_, ?_⟩
  · rw [← isSome_lookup hlaid, ← getElem?_ofList_reverse, hnone]
    simp
  · unfold assemble
    rw [hd]
    simp only [bind, Except.bind, hfill]

/-- What becomes of a listing: an image, or a refusal of a section or of a name. -/
theorem assemble_outcome {lines : List Line} (musicBase : UInt16)
    (hnames : (labelNames lines).Nodup) (halign : ∀ n, .align n ∈ lines → n < 0x100000000)
    (hshort : ∀ line ∈ lines, line.IsShort) :
    (∀ s, Fits musicBase lines s) ∧
      (Listing.IsClosed lines ∧
          (∃ image, assemble lines musicBase = .ok image ∧ image.Realizes musicBase lines) ∨
        ∃ ws name, .words ws ∈ lines ∧ .label name ∈ ws ∧ .label name ∉ lines ∧
          assemble lines musicBase = .error (.unresolvedSymbol name)) ∨
    ∃ s, ¬ Fits musicBase lines s ∧
      assemble lines musicBase = .error (.addressOverflow s.name) := by
  have hfits : ∀ s, Draft.Fits { music := { base := musicBase } } lines s ↔
      Fits musicBase lines s := fun s => by
    rw [Draft.Fits, startOf_first, itemsIn_first]
    rfl
  rcases Draft.laid_or_overflow (sound_first musicBase) halign hshort with
    ⟨hall, d, hd, hlaid⟩ | ⟨s, hunfit, herror⟩
  · simp only [hfits] at hall
    refine .inl ⟨hall, ?_⟩
    rcases fill_or_unresolved (.ofList d.labels.reverse) d.holes.reverse d with
      ⟨d', hfill⟩ | ⟨hole, hhole, hnone, hfill⟩
    · exact .inl (realizes_of_fill hnames hall hd hlaid hfill)
    · exact .inr (unresolved_of_fill hd hlaid hhole hnone hfill)
  · refine .inr ⟨s, mt (hfits s).2 hunfit, ?_⟩
    unfold assemble
    rw [herror]
    rfl

/-- **An image is the one of the two passes**, and there is none only if a section does not fit the
address space or, if all do, a name is not defined. No label may be defined twice, alignments are
numbers of 32 bits, and no line has so many bytes that the address behind it is not one. -/
theorem assemble_two_pass {lines : List Line} (musicBase : UInt16)
    (hnames : (labelNames lines).Nodup) (halign : ∀ n, .align n ∈ lines → n < 0x100000000)
    (hshort : ∀ line ∈ lines, line.IsShort) :
    ((∃ image, assemble lines musicBase = .ok image) ↔
      (∀ s, Fits musicBase lines s) ∧ Listing.IsClosed lines) ∧
    (∀ image, assemble lines musicBase = .ok image → image.Realizes musicBase lines) ∧
    ∀ e, assemble lines musicBase = .error e →
      (∃ s, ¬ Fits musicBase lines s ∧ e = .addressOverflow s.name) ∨
      (∀ s, Fits musicBase lines s) ∧ ∃ ws name, .words ws ∈ lines ∧ .label name ∈ ws ∧
        .label name ∉ lines ∧ e = .unresolvedSymbol name := by
  rcases assemble_outcome musicBase hnames halign hshort with
    ⟨hfits, ⟨hclosed, image, himage, hrealizes⟩ | ⟨ws, name, hws, hname, hnot, herror⟩⟩ |
      ⟨s, hunfit, herror⟩
  · refine ⟨⟨fun _ => ⟨hfits, hclosed⟩, fun _ => ⟨image, himage⟩⟩, fun image' h => ?_,
      fun e h => ?_⟩
    · exact Except.ok.inj (himage.symm.trans h) ▸ hrealizes
    · cases himage.symm.trans h
  · refine ⟨⟨fun ⟨_, h⟩ => ?_, fun h => absurd (h.2 ws hws name hname) hnot⟩, fun _ h => ?_,
      fun e h => .inr ⟨hfits, ws, name, hws, hname, hnot, ?_⟩⟩
    · cases herror.symm.trans h
    · cases herror.symm.trans h
    · exact (Except.error.inj (herror.symm.trans h)).symm
  · refine ⟨⟨fun ⟨_, h⟩ => ?_, fun h => absurd (h.1 s) hunfit⟩, fun _ h => ?_,
      fun e h => .inl ⟨s, hunfit, ?_⟩⟩
    · cases herror.symm.trans h
    · cases herror.symm.trans h
    · exact (Except.error.inj (herror.symm.trans h)).symm

/-- Music around an aligned sample, which its first word names. -/
def splitListing : List Line :=
  [.words [.label "kick", .value 0xBEEF], .segment .samples 0xC000, .bytes [1], .align 64,
    .label "kick", .segment .music 0, .bytes [2]]

/-- The listing has the image of the two passes, in which the sample is at the next multiple. -/
theorem assemble_two_pass_splitListing : ∃ image, assemble splitListing 0x8000 = .ok image ∧
    image.Realizes 0x8000 splitListing ∧
    (image.address "kick").map UInt16.toNat = some 0xC040 := by
  obtain ⟨hiff, hrealizes, -⟩ := @assemble_two_pass splitListing 0x8000 (by decide)
    (by simp [splitListing]) (by decide)
  obtain ⟨image, himage⟩ := hiff.2
    ⟨fun s => by cases s <;> decide, by simp [Listing.IsClosed, splitListing]⟩
  exact ⟨image, himage, hrealizes image himage, (hrealizes image himage).labels "kick"⟩

end Chiptune.Image
