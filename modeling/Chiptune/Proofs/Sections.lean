import Chiptune.Proofs.Drafts

/-!
# Segments of a listing, laid out on their own

The lines of a segment are those between the segment lines that open or continue it (`linesIn`).
Laid out from the address of the segment on, they are items (`sectionOf`), where an alignment is as
many zero bytes as it takes. A draft lays out the lines of both segments at once. What it has behind
some lines is what their sections have:

* `Draft.addLine_eq`: **a line adds its items to the current segment**, or they do not fit.
* `Draft.laid_or_overflow`: **a listing is laid out as its sections are**, or one of them does not
  fit.
-/

set_option autoImplicit false

namespace Chiptune

/-- Zeros in front of the next multiple of an alignment. -/
def padding (alignment address : Nat) : Nat :=
  (max 1 alignment - address % max 1 alignment) % max 1 alignment

theorem dvd_add_padding (alignment address : Nat) :
    max 1 alignment ∣ address + padding alignment address := by
  have hpos : 0 < max 1 alignment := by omega
  unfold padding
  generalize max 1 alignment = step at hpos
  have hlt := Nat.mod_lt address hpos
  refine Nat.dvd_of_mod_eq_zero ?_
  rw [Nat.add_mod, Nat.mod_mod, ← Nat.add_mod]
  have hsum : address + (step - address % step) = step * (address / step + 1) := by
    have hdiv := Nat.div_add_mod address step
    rw [Nat.mul_add, Nat.mul_one]
    omega
  rw [hsum, Nat.mul_mod_right]

theorem padding_lt (alignment address : Nat) : padding alignment address < max 1 alignment :=
  Nat.mod_lt _ (by omega)

/-- Items of a line at an address. -/
def Line.itemsAt (address : Nat) : Line → List Item
  | .align alignment => .replicate (padding alignment address) (.byte 0)
  | line => line.items

/-- Name of a label that a line defines. -/
def Line.labelName : Line → Option String
  | .label name => some name
  | _ => none

namespace Image

/-- Names of the labels of a listing, in order of definition. -/
def labelNames (lines : List Line) : List String := lines.filterMap Line.labelName

theorem mem_labelNames {lines : List Line} {name : String} :
    name ∈ labelNames lines ↔ .label name ∈ lines := by
  unfold labelNames
  rw [List.mem_filterMap]
  constructor
  · rintro ⟨line, hline, hname⟩
    cases line <;> cases hname
    exact hline
  · exact fun h => ⟨_, h, rfl⟩

/-- Items of the lines of one segment, laid out from an address on. -/
def itemsAt (address : Nat) : List Line → List Item
  | [] => []
  | line :: rest => line.itemsAt address ++ itemsAt (address + sizeOf (line.itemsAt address)) rest

/-- Lines of a segment, of lines that begin in the current one. -/
def linesIn (s current : Segment) : List Line → List Line
  | [] => []
  | .segment next _ :: rest => linesIn s next rest
  | line :: rest => if current = s then line :: linesIn s current rest else linesIn s current rest

theorem linesIn_cons {line : Line} (hplain : ∀ s base, line ≠ .segment s base) (rest : List Line)
    (s current : Segment) : linesIn s current (line :: rest) =
      if current = s then line :: linesIn s current rest else linesIn s current rest := by
  cases line with
  | segment next base => exact absurd rfl (hplain next base)
  | _ => rfl

/-- Address of the sample segment: the one of the line that opens it. -/
def samplesBase : List Line → UInt16
  | [] => 0
  | .segment .samples base :: _ => base
  | _ :: rest => samplesBase rest

/-- Address at which a segment of a listing begins. -/
def baseOf (musicBase : UInt16) (lines : List Line) : Segment → UInt16
  | .music => musicBase
  | .samples => samplesBase lines

/-- Items of a segment of a listing. -/
def sectionOf (musicBase : UInt16) (lines : List Line) (s : Segment) : List Item :=
  itemsAt (baseOf musicBase lines s).toNat (linesIn s .music lines)

/-- Items that are laid out from an address on have labels of 16 bits, and they end inside of the
address space. -/
def FitsFrom (address : Nat) (items : List Item) : Prop :=
  (∀ e ∈ labelsFrom address items, e.2 ≤ maxAddress) ∧ address + sizeOf items ≤ maxAddress + 1

instance (address : Nat) (items : List Item) : Decidable (FitsFrom address items) :=
  inferInstanceAs (Decidable (_ ∧ _))

theorem fitsFrom_append {address : Nat} {items more : List Item} :
    FitsFrom address (items ++ more) ↔
      FitsFrom address items ∧ FitsFrom (address + sizeOf items) more := by
  unfold FitsFrom
  rw [labelsFrom_append, sizeOf_append, List.forall_mem_append]
  constructor
  · rintro ⟨⟨hitems, hmore⟩, hsize⟩
    exact ⟨⟨hitems, by omega⟩, hmore, by omega⟩
  · rintro ⟨⟨hitems, -⟩, hmore, hsize⟩
    exact ⟨⟨hitems, hmore⟩, by omega⟩

/-- Empty words of a segment. -/
def holesOf (s : Segment) (offset : Nat) (items : List Item) : List Hole :=
  (holesFrom offset items).map fun hole => { hole with segment := s }

theorem holesOf_append (s : Segment) (offset : Nat) (items more : List Item) :
    holesOf s offset (items ++ more) =
      holesOf s offset items ++ holesOf s (offset + sizeOf items) more := by
  rw [holesOf, holesFrom_append, List.map_append]
  rfl

/-! ## Lines without labels -/

theorem labelsFrom_bytes (address : Nat) (data : List UInt8) :
    labelsFrom address (data.map .byte) = [] := by
  induction data generalizing address with
  | nil => rfl
  | cons b data ih => exact ih _

theorem labelsFrom_words (address : Nat) (data : List Word) :
    labelsFrom address (data.map .word) = [] := by
  induction data generalizing address with
  | nil => rfl
  | cons w data ih => exact ih _

theorem holesFrom_bytes (offset : Nat) (data : List UInt8) :
    holesFrom offset (data.map .byte) = [] := by
  induction data generalizing offset with
  | nil => rfl
  | cons b data ih => exact ih _

end Image

namespace Image.Draft

variable {d d' u : Draft} {lines : List Line}

/-! ## Adding items to the current segment -/

/-- Block of a segment; one that is not open is empty. -/
def blockOf (d : Draft) : Segment → Block
  | .music => d.music
  | .samples => d.samples.getD { base := 0 }

theorem block_eq (d : Draft) : d.block = d.blockOf d.current := by
  unfold block blockOf
  cases d.current <;> rfl

/-- Add items to the current segment. -/
def add (d : Draft) (items : List Item) : Draft :=
  { d.setBlock (d.block.append (bytesOf (fun _ => none) items)) with
    labels := defined (labelsFrom d.block.stop items) ++ d.labels
    holes := (holesOf d.current d.block.bytes.size items).reverse ++ d.holes }

@[simp]
theorem current_add (d : Draft) (items : List Item) : (d.add items).current = d.current := by
  unfold add setBlock
  cases d.current <;> rfl

theorem blockOf_add (d : Draft) (items : List Item) (s : Segment) :
    (d.add items).blockOf s =
      (d.blockOf s).append (if d.current = s then bytesOf (fun _ => none) items else []) := by
  unfold add setBlock block blockOf
  cases d.current <;> cases s <;> simp [Block.append]

theorem block_add (d : Draft) (items : List Item) :
    (d.add items).block = d.block.append (bytesOf (fun _ => none) items) := by
  rw [block_eq, blockOf_add, current_add, if_pos rfl, block_eq]

theorem append_append (b : Block) (bytes more : List UInt8) :
    (b.append bytes).append more = b.append (bytes ++ more) := by
  simp [Block.append, ← Array.toList_inj]

theorem add_add (d : Draft) (items more : List Item) :
    (d.add items).add more = d.add (items ++ more) := by
  have hsize : (d.add items).block.bytes.size = d.block.bytes.size + sizeOf items := by
    rw [block_add]
    simp [Block.append, size_appendList]
  have hset : (d.add items).setBlock ((d.add items).block.append (bytesOf (fun _ => none) more)) =
      { d.setBlock (d.block.append (bytesOf (fun _ => none) (items ++ more))) with
        labels := (d.add items).labels, holes := (d.add items).holes } := by
    rw [block_add, append_append, ← bytesOf_append]
    unfold add setBlock
    cases d.current <;> rfl
  rw [add, hset, hsize, block_add, Block.stop_append, length_bytesOf, current_add]
  simp only [add, labelsFrom_append, holesOf_append, defined, List.map_append, List.reverse_append,
    List.append_assoc]

/-- A draft is in a segment that is open, and its segments are inside of the address space. -/
structure Sound (d : Draft) : Prop where
  opened : d.current = .samples → d.samples.isSome = true
  inside : ∀ s, (d.blockOf s).stop ≤ maxAddress + 1

theorem setBlock_nil (h : d.Sound) : d.setBlock (d.block.append []) = d := by
  obtain ⟨music, samples, current, labels, holes⟩ := d
  cases current with
  | music => simp [setBlock, block, Block.append]
  | samples =>
    obtain ⟨b, rfl⟩ := Option.isSome_iff_exists.1 (h.opened rfl)
    simp [setBlock, block, Block.append]

theorem add_nil (h : d.Sound) : d.add [] = d := by
  rw [add, bytesOf_nil, setBlock_nil h]
  rfl

theorem add_label (h : d.Sound) (name : String) : d.add [.label name] =
    { d with labels := (name, UInt16.ofNat d.block.stop) :: d.labels } := by
  have hbytes : bytesOf (fun _ => none) [.label name] = [] := rfl
  rw [add, hbytes, setBlock_nil h]
  rfl

theorem setBlock_append (d : Draft) {items : List Item} {data : List UInt8}
    (hbytes : bytesOf (fun _ => none) items = data)
    (hlabels : labelsFrom d.block.stop items = [])
    (hholes : holesFrom d.block.bytes.size items = []) :
    d.setBlock (d.block.append data) = d.add items := by
  rw [add, hbytes, hlabels, holesOf, hholes]
  unfold setBlock
  cases d.current <;> rfl

theorem addWord_eq (d : Draft) (w : Word) : d.addWord w = d.add [.word w] := by
  cases w with
  | value v => exact d.setBlock_append (by simp [Item.bytes]) rfl rfl
  | label name =>
    have hbytes : bytesOf (fun _ => none) [.word (.label name)] = [0, 0] := by
      simp [Item.bytes, wordBytes]
    rw [addWord, add, hbytes]
    unfold setBlock
    cases d.current <;> rfl

theorem addWords_eq (h : d.Sound) (data : List Word) :
    data.foldl addWord d = d.add (data.map .word) := by
  have hfold : ∀ items, data.foldl addWord (d.add items) = d.add (items ++ data.map .word) := by
    intro items
    induction data generalizing items with
    | nil => simp
    | cons w data ih =>
      rw [List.foldl_cons, addWord_eq, add_add, ih, List.append_assoc]
      rfl
  have hnil := hfold []
  rwa [add_nil h, List.nil_append] at hnil

/-! ## Lines -/

/-- Items that define no label fit if they end inside of the address space. -/
theorem fitsFrom_iff {address : Nat} {items : List Item} (h : labelsFrom address items = []) :
    FitsFrom address items ↔ address + sizeOf items ≤ maxAddress + 1 := by
  rw [FitsFrom, h]
  simp

theorem check_add (items : List Item) (h : d.block.stop + sizeOf items < UInt32.size) :
    (d.add items).check = if d.block.stop + sizeOf items ≤ maxAddress + 1 then .ok (d.add items)
      else .error (.addressOverflow d.current.name) := by
  have hstop : (d.add items).block.stop = d.block.stop + sizeOf items := by
    rw [block_add, Block.stop_append, length_bytesOf]
  rw [check_eq (hstop ▸ h), hstop, current_add]
  split <;> split <;> first | rfl | omega

/-- An alignment adds as many zeros as lead to the next multiple. -/
theorem addLine_align {alignment : Nat} (hin : d.block.stop ≤ maxAddress + 1)
    (h : alignment < 0x100000000) :
    d.addLine (.align alignment) =
      if FitsFrom d.block.stop ((Line.align alignment).itemsAt d.block.stop)
      then .ok (d.add ((Line.align alignment).itemsAt d.block.stop))
      else .error (.addressOverflow d.current.name) := by
  have hstep : max 1 alignment % 0x100000000 = max 1 alignment := by omega
  have hpos : max 1 alignment ≠ 0 := by omega
  have haddress := Block.toNat_address (Block.stop_lt hin)
  have hzeros : (.replicate (padding alignment d.block.stop) (.byte 0) : List Item) =
      (List.replicate (padding alignment d.block.stop) 0).map .byte :=
    List.map_replicate.symm
  have hlabels := labelsFrom_bytes d.block.stop
    (.replicate (padding alignment d.block.stop) 0)
  have hsize : sizeOf ((List.replicate (padding alignment d.block.stop) 0).map .byte) =
      padding alignment d.block.stop := by
    rw [sizeOf_bytes, List.length_replicate]
  simp only [addLine, hstep, if_neg hpos, haddress, Line.itemsAt, hzeros, fitsFrom_iff hlabels]
  rw [← padding, d.setBlock_append (Layout.bytesOf_bytes _ _) hlabels (holesFrom_bytes _ _), hsize]
  split <;> split <;> first | rfl | omega

/-- **A line adds its items to the current segment, or they do not fit.** -/
theorem addLine_eq (h : d.Sound) {line : Line} (hplain : ∀ s base, line ≠ .segment s base)
    (halign : ∀ n, line = .align n → n < 0x100000000) (hshort : line.IsShort) : d.addLine line =
      if FitsFrom d.block.stop (line.itemsAt d.block.stop)
      then .ok (d.add (line.itemsAt d.block.stop))
      else .error (.addressOverflow d.current.name) := by
  have hinside : d.block.stop ≤ maxAddress + 1 := by
    rw [block_eq]
    exact h.inside _
  have hnil : FitsFrom d.block.stop [] := (fitsFrom_iff rfl).2 hinside
  have hsize : d.block.stop + sizeOf line.items < UInt32.size := by
    rw [Line.IsShort] at hshort
    omega
  cases line with
  | segment s base => exact absurd rfl (hplain s base)
  | comment text => exact (congrArg _ (add_nil h).symm).trans (if_pos hnil).symm
  | blank => exact (congrArg _ (add_nil h).symm).trans (if_pos hnil).symm
  | bytes data =>
    have hlabels := labelsFrom_bytes d.block.stop data
    rw [addLine, d.setBlock_append (Layout.bytesOf_bytes _ data) hlabels (holesFrom_bytes _ data),
      check_add (data.map .byte) hsize]
    simp only [← fitsFrom_iff hlabels]
    rfl
  | words data =>
    have hlabels := labelsFrom_words d.block.stop data
    rw [addLine, addWords_eq h, check_add (data.map .word) hsize]
    simp only [← fitsFrom_iff hlabels]
    rfl
  | label name =>
    have hfits : FitsFrom d.block.stop [.label name] ↔ d.block.stop ≤ maxAddress := by
      simp only [FitsFrom, labelsFrom, List.mem_singleton, forall_eq, sizeOf_cons, sizeOf_nil,
        Item.size]
      omega
    simp only [addLine_label hinside, Line.itemsAt, Line.items, hfits]
    have hzero : sizeOf [.label name] = 0 := rfl
    rw [← add_label h, check_add [.label name] hsize, hzero, Nat.add_zero, if_pos hinside]
    split <;> split <;> first | rfl | omega
  | align alignment => exact addLine_align hinside (halign alignment rfl)

/-! ## Listings -/

/-- Address from which a segment goes on in some lines. -/
def startOf (d : Draft) (lines : List Line) : Segment → Nat
  | .music => d.music.stop
  | .samples => (d.samples.getD { base := samplesBase lines }).stop

/-- Items that some lines add to a segment. -/
def itemsIn (d : Draft) (lines : List Line) (s : Segment) : List Item :=
  itemsAt (d.startOf lines s) (linesIn s d.current lines)

/-- What a draft has behind some lines: for each segment the bytes, labels and empty words of its
items. -/
structure Laid (d d' : Draft) (lines : List Line) : Prop where
  bytes : ∀ s, (d'.blockOf s).bytes.toList =
    (d.blockOf s).bytes.toList ++ bytesOf (fun _ => none) (d.itemsIn lines s)
  holes : ∀ s, d'.holes.reverse.filter (·.segment = s) =
    d.holes.reverse.filter (·.segment = s) ++
      holesOf s (d.blockOf s).bytes.size (d.itemsIn lines s)
  names : d'.labels.map Prod.fst = (labelNames lines).reverse ++ d.labels.map Prod.fst
  labels : ∀ e, e ∈ d'.labels ↔ e ∈ d.labels ∨
    ∃ s, ∃ x ∈ labelsFrom (d.startOf lines s) (d.itemsIn lines s), (x.1, UInt16.ofNat x.2) = e

/-- The lines of a segment fit behind a draft. -/
def Fits (d : Draft) (lines : List Line) (s : Segment) : Prop :=
  FitsFrom (d.startOf lines s) (d.itemsIn lines s)

theorem opened_add (d : Draft) (items : List Item) (h : (d.add items).current = .samples) :
    (d.add items).samples.isSome = true := by
  rw [current_add] at h
  unfold add setBlock
  rw [h]
  rfl

theorem Sound.add (h : d.Sound) {items : List Item} (hfits : FitsFrom d.block.stop items) :
    (d.add items).Sound where
  opened := d.opened_add items
  inside s := by
    rw [blockOf_add, Block.stop_append]
    split
    · rename_i hs
      rw [length_bytesOf, ← hs, ← block_eq]
      exact hfits.2
    · exact h.inside s

@[simp]
theorem current_enter (d : Draft) (s : Segment) (base : UInt16) : (d.enter s base).current = s := by
  unfold enter
  split <;> rfl

/-- A segment that is opened has no bytes yet. -/
theorem blockOf_enter (d : Draft) (s : Segment) (base : UInt16) (t : Segment) :
    (d.enter s base).blockOf t = d.blockOf t ∨ (d.enter s base).blockOf t = { base } ∧
      (d.blockOf t).bytes = #[] := by
  unfold enter
  split
  · rename_i hnone
    cases t with
    | music => exact .inl rfl
    | samples => exact .inr ⟨rfl, by simp [blockOf, hnone]⟩
  · cases t <;> exact .inl rfl

theorem Sound.enter (h : d.Sound) (s : Segment) (base : UInt16) : (d.enter s base).Sound where
  opened hc := by
    rw [current_enter] at hc
    subst hc
    unfold Draft.enter
    cases d.samples <;> simp
  inside t := by
    rcases d.blockOf_enter s base t with heq | ⟨heq, -⟩
    · rw [heq]
      exact h.inside t
    · have hlt := base.toNat_lt
      rw [heq]
      simp only [Block.stop, maxAddress, Array.size_empty]
      omega

/-- The current segment goes on behind its bytes. -/
theorem startOf_current (h : d.current = .samples → d.samples.isSome = true) (lines : List Line) :
    d.startOf lines d.current = d.block.stop := by
  rw [block_eq]
  unfold startOf blockOf
  cases hc : d.current with
  | music => rfl
  | samples =>
    obtain ⟨b, hb⟩ := Option.isSome_iff_exists.1 (h hc)
    rw [hb]
    rfl

/-- Items that a line adds to a segment. -/
def added (d : Draft) (line : Line) (s : Segment) : List Item :=
  if d.current = s then line.itemsAt d.block.stop else []

theorem startOf_cons (d : Draft) {line : Line} (hplain : ∀ s base, line ≠ .segment s base)
    (rest : List Line) (s : Segment) : d.startOf (line :: rest) s = d.startOf rest s := by
  have hbase : samplesBase (line :: rest) = samplesBase rest := by
    cases line with
    | segment s base => exact absurd rfl (hplain s base)
    | _ => rfl
  unfold startOf
  rw [hbase]

/-- Behind the items of a line a segment goes on behind those that it has of them. -/
theorem startOf_add (h : d.Sound) (line : Line) (rest : List Line) (s : Segment) :
    (d.add (line.itemsAt d.block.stop)).startOf rest s =
      d.startOf rest s + sizeOf (d.added line s) := by
  unfold added
  by_cases hs : d.current = s
  · subst hs
    have hstart := startOf_current (d.opened_add (line.itemsAt d.block.stop)) rest
    rw [current_add, block_add, Block.stop_append, length_bytesOf] at hstart
    rw [hstart, if_pos rfl, startOf_current h.opened]
  · rw [if_neg hs]
    unfold startOf add setBlock
    cases hc : d.current <;> cases s <;> first | exact absurd hc hs | rfl

/-- Items of a line and of those behind it. -/
theorem itemsIn_cons (h : d.Sound) {line : Line} (hplain : ∀ s base, line ≠ .segment s base)
    (rest : List Line) (s : Segment) : d.itemsIn (line :: rest) s =
      d.added line s ++ (d.add (line.itemsAt d.block.stop)).itemsIn rest s := by
  rw [itemsIn, itemsIn, startOf_add h, current_add, linesIn_cons hplain, startOf_cons d hplain]
  unfold added
  by_cases hs : d.current = s
  · subst hs
    rw [if_pos rfl, if_pos rfl, startOf_current h.opened]
    rfl
  · rw [if_neg hs, if_neg hs]
    rfl

theorem filter_holesOf (s t : Segment) (offset : Nat) (items : List Item) :
    (holesOf s offset items).filter (·.segment = t) =
      if s = t then holesOf s offset items else [] := by
  split
  · rename_i hs
    refine List.filter_eq_self.2 fun hole hhole => ?_
    obtain ⟨_, -, rfl⟩ := List.mem_map.1 hhole
    exact decide_eq_true hs
  · rename_i hs
    refine List.filter_eq_nil_iff.2 fun hole hhole => ?_
    obtain ⟨_, -, rfl⟩ := List.mem_map.1 hhole
    simpa using hs

/-- Names of the labels of a line. -/
theorem names_itemsAt (address : Nat) (line : Line) :
    (labelsFrom address (line.itemsAt address)).map Prod.fst = line.labelName.toList := by
  cases line with
  | label name => rfl
  | bytes data => exact congrArg _ (labelsFrom_bytes address data)
  | words data => exact congrArg _ (labelsFrom_words address data)
  | align alignment =>
    have hlabels := labelsFrom_bytes address (.replicate (padding alignment address) 0)
    rw [List.map_replicate] at hlabels
    exact congrArg _ hlabels
  | _ => rfl

theorem mem_defined {labels : List (String × Nat)} {e : String × UInt16} :
    e ∈ defined labels ↔ ∃ x ∈ labels, (x.1, UInt16.ofNat x.2) = e := by
  rw [defined, List.mem_reverse, List.mem_map]

/-! ## What a line adds -/

theorem bytes_added (d : Draft) (line : Line) (s : Segment) :
    ((d.add (line.itemsAt d.block.stop)).blockOf s).bytes.toList =
      (d.blockOf s).bytes.toList ++ bytesOf (fun _ => none) (d.added line s) := by
  rw [blockOf_add]
  unfold added
  split <;> simp [Block.append]

theorem size_added (d : Draft) (line : Line) (s : Segment) :
    ((d.add (line.itemsAt d.block.stop)).blockOf s).bytes.size =
      (d.blockOf s).bytes.size + sizeOf (d.added line s) := by
  rw [← Array.length_toList, bytes_added, List.length_append, length_bytesOf, Array.length_toList]

theorem holes_added (d : Draft) (line : Line) (s : Segment) :
    (d.add (line.itemsAt d.block.stop)).holes.reverse.filter (·.segment = s) =
      d.holes.reverse.filter (·.segment = s) ++
        holesOf s (d.blockOf s).bytes.size (d.added line s) := by
  have hholes : (d.add (line.itemsAt d.block.stop)).holes.reverse =
      d.holes.reverse ++ holesOf d.current d.block.bytes.size (line.itemsAt d.block.stop) := by
    simp [add]
  rw [hholes, List.filter_append, filter_holesOf]
  unfold added
  split
  · rename_i hs
    rw [← hs, block_eq]
  · rfl

theorem names_added (d : Draft) (line : Line) :
    (d.add (line.itemsAt d.block.stop)).labels.map Prod.fst =
      line.labelName.toList.reverse ++ d.labels.map Prod.fst := by
  rw [← names_itemsAt d.block.stop]
  simp [add, defined]

theorem labels_added (h : d.Sound) (line : Line) (rest : List Line) (e : String × UInt16) :
    e ∈ (d.add (line.itemsAt d.block.stop)).labels ↔
      e ∈ d.labels ∨ ∃ s, ∃ x ∈ labelsFrom (d.startOf rest s) (d.added line s),
        (x.1, UInt16.ofNat x.2) = e := by
  have hmem : e ∈ (d.add (line.itemsAt d.block.stop)).labels ↔
      e ∈ defined (labelsFrom d.block.stop (line.itemsAt d.block.stop)) ∨
        e ∈ d.labels := List.mem_append
  rw [hmem, mem_defined, or_comm]
  refine or_congr_right ⟨fun hx => ⟨d.current, ?_⟩, ?_⟩
  · rwa [startOf_current h.opened, added, if_pos rfl]
  · rintro ⟨s, x, hx, he⟩
    unfold added at hx
    split at hx
    · rename_i hs
      subst hs
      rw [startOf_current h.opened] at hx
      exact ⟨x, hx, he⟩
    · cases hx

/-- **A line is laid out with those behind it.** -/
theorem Laid.cons (h : d.Sound) {line : Line} (hplain : ∀ s base, line ≠ .segment s base)
    {rest : List Line} (hrest : (d.add (line.itemsAt d.block.stop)).Laid d' rest) :
    d.Laid d' (line :: rest) where
  bytes s := by
    rw [hrest.bytes, bytes_added, itemsIn_cons h hplain, bytesOf_append, List.append_assoc]
  holes s := by
    rw [hrest.holes, holes_added, size_added, itemsIn_cons h hplain, holesOf_append,
      List.append_assoc]
  names := by
    have hnames : labelNames (line :: rest) = line.labelName.toList ++ labelNames rest := by
      unfold labelNames
      cases hline : line.labelName <;> simp [hline]
    rw [hrest.names, names_added, hnames, List.reverse_append, List.append_assoc]
  labels e := by
    rw [hrest.labels, labels_added h line rest]
    simp only [itemsIn_cons h hplain, labelsFrom_append, startOf_cons d hplain, ← startOf_add h,
      List.mem_append, or_and_right, exists_or, or_assoc]

/-! ## What fits -/

theorem Sound.startOf_le (h : d.Sound) (lines : List Line) (s : Segment) :
    d.startOf lines s ≤ maxAddress + 1 := by
  cases s with
  | music => exact h.inside .music
  | samples =>
    have hinside := h.inside .samples
    unfold startOf
    unfold blockOf at hinside
    cases hsamples : d.samples with
    | some b =>
      rw [hsamples] at hinside
      exact hinside
    | none =>
      have hlt := (samplesBase lines).toNat_lt
      simp only [Option.getD_none, Block.stop, Array.size_empty, maxAddress]
      omega

/-- What fits into the current segment fits into all. -/
theorem fits_added (h : d.Sound) {line : Line}
    (hfits : FitsFrom d.block.stop (line.itemsAt d.block.stop)) (rest : List Line)
    (s : Segment) : FitsFrom (d.startOf rest s) (d.added line s) := by
  unfold added
  split
  · rename_i hs
    subst hs
    rwa [startOf_current h.opened]
  · exact (fitsFrom_iff rfl).2 (h.startOf_le rest s)

/-- **What fits behind a line and what it adds fit together.** -/
theorem fits_cons (h : d.Sound) {line : Line} (hplain : ∀ s base, line ≠ .segment s base)
    (rest : List Line) (s : Segment) : d.Fits (line :: rest) s ↔
      FitsFrom (d.startOf rest s) (d.added line s) ∧
        (d.add (line.itemsAt d.block.stop)).Fits rest s := by
  rw [Fits, itemsIn_cons h hplain, fitsFrom_append, startOf_cons d hplain, ← startOf_add h]
  rfl

/-- A segment line adds nothing. -/
theorem startOf_enter (d : Draft) (next : Segment) (base : UInt16) (rest : List Line)
    (s : Segment) :
    (d.enter next base).startOf rest s = d.startOf (.segment next base :: rest) s := by
  unfold startOf enter
  cases s with
  | music => cases next <;> cases d.samples <;> rfl
  | samples =>
    cases d.samples <;> cases next <;> simp [samplesBase]

theorem itemsIn_enter (d : Draft) (next : Segment) (base : UInt16) (rest : List Line)
    (s : Segment) :
    (d.enter next base).itemsIn rest s = d.itemsIn (.segment next base :: rest) s := by
  rw [itemsIn, startOf_enter, current_enter]
  rfl

theorem Laid.enter {next : Segment} {base : UInt16} {rest : List Line}
    (hrest : (d.enter next base).Laid d' rest) : d.Laid d' (.segment next base :: rest) := by
  have hsame : (d.enter next base).holes = d.holes ∧ (d.enter next base).labels = d.labels := by
    unfold Draft.enter
    split <;> exact ⟨rfl, rfl⟩
  have hbytes : ∀ s, ((d.enter next base).blockOf s).bytes = (d.blockOf s).bytes := by
    intro s
    rcases d.blockOf_enter next base s with heq | ⟨heq, hnone⟩
    · rw [heq]
    · rw [heq, hnone]
  constructor
  · intro s
    rw [hrest.bytes, hbytes, itemsIn_enter]
  · intro s
    rw [hrest.holes, hsame.1, hbytes, itemsIn_enter]
  · rw [hrest.names, hsame.2]
    rfl
  · intro e
    rw [hrest.labels, hsame.2]
    simp only [startOf_enter, itemsIn_enter]

theorem laid_nil (d : Draft) : d.Laid d [] where
  bytes s := (List.append_nil _).symm
  holes s := (List.append_nil _).symm
  names := rfl
  labels e := (or_iff_left (by rintro ⟨s, x, hx, -⟩; cases hx)).symm

theorem fits_nil (h : d.Sound) (s : Segment) : d.Fits [] s :=
  (fitsFrom_iff rfl).2 (h.startOf_le [] s)

/-- **A listing is laid out as its sections are, or one of them does not fit.** -/
theorem laid_or_overflow (h : d.Sound) (halign : ∀ n, .align n ∈ lines → n < 0x100000000)
    (hshort : ∀ line ∈ lines, line.IsShort) :
    ((∀ s, d.Fits lines s) ∧ ∃ d', lines.foldlM addLine d = .ok d' ∧ d.Laid d' lines) ∨
      ∃ s, ¬ d.Fits lines s ∧ lines.foldlM addLine d = .error (.addressOverflow s.name) := by
  induction lines generalizing d with
  | nil => exact .inl ⟨fits_nil h, d, rfl, d.laid_nil⟩
  | cons line rest ih =>
    have halign' : ∀ n, .align n ∈ rest → n < 0x100000000 := fun n hn =>
      halign n (List.mem_cons_of_mem _ hn)
    have hshort' : ∀ line ∈ rest, line.IsShort := fun line hline =>
      hshort line (List.mem_cons_of_mem _ hline)
    by_cases hplain : ∀ s base, line ≠ .segment s base
    · have hline := addLine_eq h hplain (fun n hn => halign n (hn ▸ List.mem_cons_self))
        (hshort line List.mem_cons_self)
      by_cases hfits : FitsFrom d.block.stop (line.itemsAt d.block.stop)
      · rw [if_pos hfits] at hline
        rw [List.foldlM_cons, hline]
        rcases ih (h.add hfits) halign' hshort' with ⟨hrest, d', hd', hlaid⟩ | ⟨s, hrest, herror⟩
        · exact .inl ⟨fun s => (fits_cons h hplain rest s).2 ⟨fits_added h hfits rest s, hrest s⟩,
            d', hd', hlaid.cons h hplain⟩
        · exact .inr ⟨s, fun hs => hrest ((fits_cons h hplain rest s).1 hs).2, herror⟩
      · rw [if_neg hfits] at hline
        refine .inr ⟨d.current, fun hs => hfits ?_, by rw [List.foldlM_cons, hline]; rfl⟩
        have hboth := ((fits_cons h hplain rest d.current).1 hs).1
        rwa [added, if_pos rfl, startOf_current h.opened] at hboth
    · simp only [ne_eq, not_forall, not_not] at hplain
      obtain ⟨s, base, rfl⟩ := hplain
      have hfits : ∀ t, (d.enter s base).Fits rest t ↔ d.Fits (.segment s base :: rest) t := by
        intro t
        rw [Fits, startOf_enter, itemsIn_enter]
        rfl
      rcases ih (h.enter s base) halign' hshort' with ⟨hrest, d', hd', hlaid⟩ | ⟨t, hrest, herror⟩
      · exact .inl ⟨fun t => (hfits t).1 (hrest t), d', hd', hlaid.enter⟩
      · exact .inr ⟨t, fun ht => hrest ((hfits t).2 ht), herror⟩

end Image.Draft

end Chiptune
