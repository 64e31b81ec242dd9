import Chiptune.Image
import Chiptune.Proofs.Results

/-!
# What an image holds

The lines of the music segment are a sequence of items: bytes, words and labels. Laying out a line
adds its items to the draft (`Draft.Adds`), the samples behind the music leave it as it is, and then
the empty words are filled in. So the music is the bytes of its items, in which a word that names a
label is the label's address, and the last label of a name has the address of the item behind it
(`assemble_ok`).
-/

set_option autoImplicit false

namespace Chiptune

/-- Element of a listing. -/
inductive Item
  | byte (value : UInt8)
  | word (word : Word)
  | label (name : String)
  deriving DecidableEq

namespace Item

/-- Bytes that an item takes. -/
def size : Item → Nat
  | byte _ => 1
  | word _ => 2
  | label _ => 0

/-- Bytes of an item if labels have these addresses. -/
def bytes (address : String → Option UInt16) : Item → List UInt8
  | byte b => [b]
  | word (.value v) => Image.wordBytes v
  | word (.label name) => Image.wordBytes ((address name).getD 0)
  | label _ => []

@[simp]
theorem length_bytes (address : String → Option UInt16) (i : Item) :
    (i.bytes address).length = i.size := by
  cases i with
  | word w => cases w <;> rfl
  | _ => rfl

end Item

/-- Items of a line. -/
def Line.items : Line → List Item
  | .bytes data => data.map .byte
  | .words data => data.map .word
  | .label name => [.label name]
  | _ => []

/-- Items of a listing. -/
def itemsOf (lines : List Line) : List Item := lines.flatMap Line.items

theorem size_appendList {α : Type} (xs : Array α) (ys : List α) :
    (xs ++ ys).size = xs.size + ys.length := by
  rw [← Array.length_toList, Array.toList_appendList, List.length_append, Array.length_toList]

namespace Block

/-- Where the bytes of a block end, however many they are. -/
def stop (b : Block) : Nat := b.base.toNat + b.bytes.size

theorem stop_append (b : Block) (bytes : List UInt8) :
    (b.append bytes).stop = b.stop + bytes.length := by
  simp [stop, append, size_appendList, Nat.add_assoc]

/-- The address behind a block is where it ends if that is a number of 32 bits. -/
theorem toNat_address {b : Block} (h : b.stop < UInt32.size) : b.address.toNat = b.stop := by
  unfold stop UInt32.size at *
  rw [address, UInt32.toNat_add, UInt16.toNat_toUInt32, UInt32.toNat_ofNat']
  omega

theorem toUInt16_address {b : Block} (h : b.stop < UInt32.size) :
    b.address.toUInt16 = UInt16.ofNat b.stop := by
  rw [← toNat_address h]
  rfl

/-- A block inside of the address space ends at a number of 32 bits. -/
theorem stop_lt {b : Block} (h : b.stop ≤ Image.maxAddress + 1) : b.stop < UInt32.size :=
  Nat.lt_of_le_of_lt h (by decide)

end Block

namespace Image

/-- Bytes that a sequence of items takes. -/
def sizeOf : List Item → Nat
  | [] => 0
  | i :: items => i.size + sizeOf items

/-- Bytes of a sequence of items if labels have these addresses. -/
def bytesOf (address : String → Option UInt16) (items : List Item) : List UInt8 :=
  items.flatMap (Item.bytes address)

/-- Labels of items that are laid out from an address on. -/
def labelsFrom (address : Nat) : List Item → List (String × Nat)
  | [] => []
  | .label name :: rest => (name, address) :: labelsFrom address rest
  | item :: rest => labelsFrom (address + item.size) rest

/-- Empty words of items that are laid out from an offset on. -/
def holesFrom (offset : Nat) : List Item → List Hole
  | [] => []
  | .word (.label name) :: rest => ⟨.music, offset, name⟩ :: holesFrom (offset + 2) rest
  | item :: rest => holesFrom (offset + item.size) rest

@[simp]
theorem sizeOf_nil : sizeOf [] = 0 := rfl

@[simp]
theorem sizeOf_cons (i : Item) (items : List Item) :
    sizeOf (i :: items) = i.size + sizeOf items := rfl

@[simp]
theorem sizeOf_append (items more : List Item) :
    sizeOf (items ++ more) = sizeOf items + sizeOf more := by
  induction items with
  | nil => simp
  | cons i items ih => simp [ih, Nat.add_assoc]

theorem sizeOf_bytes (bytes : List UInt8) : sizeOf (bytes.map .byte) = bytes.length := by
  induction bytes with
  | nil => rfl
  | cons b bytes ih =>
    rw [List.map_cons, sizeOf_cons, ih, Item.size, List.length_cons, Nat.add_comm]

theorem sizeOf_words {α : Type} (word : α → Word) (xs : List α) :
    sizeOf (xs.map fun x => .word (word x)) = 2 * xs.length := by
  induction xs with
  | nil => rfl
  | cons x xs ih =>
    rw [List.map_cons, sizeOf_cons, ih, Item.size, List.length_cons]
    omega

@[simp]
theorem bytesOf_nil (address : String → Option UInt16) : bytesOf address [] = [] := rfl

@[simp]
theorem bytesOf_cons (address : String → Option UInt16) (i : Item) (items : List Item) :
    bytesOf address (i :: items) = i.bytes address ++ bytesOf address items :=
  List.flatMap_cons

@[simp]
theorem bytesOf_append (address : String → Option UInt16) (items more : List Item) :
    bytesOf address (items ++ more) = bytesOf address items ++ bytesOf address more :=
  List.flatMap_append

@[simp]
theorem length_bytesOf (address : String → Option UInt16) (items : List Item) :
    (bytesOf address items).length = sizeOf items := by
  induction items with
  | nil => rfl
  | cons i items ih => simp [ih]

theorem labelsFrom_append (address : Nat) (items more : List Item) :
    labelsFrom address (items ++ more) =
      labelsFrom address items ++ labelsFrom (address + sizeOf items) more := by
  induction items generalizing address with
  | nil => rfl
  | cons i items ih =>
    cases i <;> simp [labelsFrom, ih, Item.size, Nat.add_assoc]

theorem holesFrom_append (offset : Nat) (items more : List Item) :
    holesFrom offset (items ++ more) =
      holesFrom offset items ++ holesFrom (offset + sizeOf items) more := by
  induction items generalizing offset with
  | nil => rfl
  | cons i items ih =>
    cases i with
    | word w => cases w <;> simp [holesFrom, ih, Item.size, Nat.add_assoc]
    | _ => simp [holesFrom, ih, Item.size, Nat.add_assoc]

/-- The names of the labels do not depend on where they are laid out. -/
theorem mem_labelsFrom {address : Nat} {items : List Item} {e : String × Nat}
    (h : e ∈ labelsFrom address items) : .label e.1 ∈ items := by
  induction items generalizing address with
  | nil => cases h
  | cons i items ih =>
    cases i with
    | label name =>
      rcases List.mem_cons.1 h with rfl | h
      · exact List.mem_cons_self
      · exact List.mem_cons_of_mem _ (ih h)
    | _ => exact List.mem_cons_of_mem _ (ih h)

end Image

/-! ## Short lines -/

namespace Line

/-- The line has so few bytes that the address behind them is a number of 32 bits, wherever in the
address space they begin. -/
def IsShort (line : Line) : Prop :=
  Image.sizeOf line.items + (Image.maxAddress + 1) < UInt32.size

instance (line : Line) : Decidable line.IsShort := inferInstanceAs (Decidable (_ < _))

theorem isShort_of_le {line : Line} (h : Image.sizeOf line.items ≤ 16) : line.IsShort :=
  Nat.lt_of_le_of_lt (Nat.add_le_add_right h _) (by decide)

@[simp]
theorem isShort_blank : blank.IsShort := isShort_of_le (Nat.zero_le _)

@[simp]
theorem isShort_comment (text : String) : (comment text).IsShort := isShort_of_le (Nat.zero_le _)

@[simp]
theorem isShort_label (name : String) : (label name).IsShort := isShort_of_le (Nat.zero_le _)

@[simp]
theorem isShort_byte (b : UInt8) : (bytes [b]).IsShort :=
  isShort_of_le (Nat.le_of_ble_eq_true rfl)

@[simp]
theorem isShort_word (w : Word) : (words [w]).IsShort :=
  isShort_of_le (Nat.le_of_ble_eq_true rfl)

/-- The line is short and only adds its items. -/
def IsPlain : Line → Prop
  | .segment .. | .align _ => False
  | line => line.IsShort

end Line

namespace Image

/-! ## Laying out the music -/

/-- Labels with addresses of 16 bits, in reverse order. -/
def defined (labels : List (String × Nat)) : List (String × UInt16) :=
  (labels.map fun e => (e.1, UInt16.ofNat e.2)).reverse

/-- What laying out items in the music segment adds to a draft. -/
structure Draft.Adds (d d' : Draft) (items : List Item) : Prop where
  current : d'.current = d.current
  samples : d'.samples = d.samples
  base : d'.music.base = d.music.base
  bytes : d'.music.bytes.toList = d.music.bytes.toList ++ bytesOf (fun _ => none) items
  labels : d'.labels = defined (labelsFrom d.music.stop items) ++ d.labels
  fits : ∀ e ∈ labelsFrom d.music.stop items, e.2 ≤ maxAddress
  holes : d'.holes = (holesFrom d.music.bytes.size items).reverse ++ d.holes

namespace Draft

theorem Adds.refl (d : Draft) : d.Adds d [] :=
  ⟨rfl, rfl, rfl, by simp, rfl, by simp [labelsFrom], rfl⟩

theorem Adds.size {d d' : Draft} {items : List Item} (h : d.Adds d' items) :
    d'.music.bytes.size = d.music.bytes.size + sizeOf items := by
  rw [← Array.length_toList, h.bytes]
  simp

theorem Adds.stop {d d' : Draft} {items : List Item} (h : d.Adds d' items) :
    d'.music.stop = d.music.stop + sizeOf items := by
  rw [Block.stop, Block.stop, h.base, h.size, Nat.add_assoc]

theorem Adds.trans {d d' d'' : Draft} {items more : List Item} (h : d.Adds d' items)
    (h' : d'.Adds d'' more) : d.Adds d'' (items ++ more) := by
  refine ⟨h'.current.trans h.current, h'.samples.trans h.samples, h'.base.trans h.base, ?_, ?_, ?_,
    ?_⟩
  · rw [h'.bytes, h.bytes, bytesOf_append, List.append_assoc]
  · rw [h'.labels, h.labels, h.stop, labelsFrom_append]
    simp [defined]
  · intro e he
    rw [labelsFrom_append] at he
    rcases List.mem_append.1 he with he | he
    · exact h.fits e he
    · exact h'.fits e (h.stop ▸ he)
  · rw [h'.holes, h.holes, h.size, holesFrom_append]
    simp

theorem check_ok {d d' : Draft} (h : d.check = .ok d') : d' = d := by
  unfold check at h
  split at h
  · cases h
  · exact (Except.ok.inj h).symm

variable {d d' : Draft}

@[simp]
theorem block_setBlock (d : Draft) (b : Block) : (d.setBlock b).block = b := by
  unfold setBlock block
  cases d.current <;> rfl

/-- A block whose end is a number of 32 bits is refused if it ends outside of the address space. -/
theorem check_eq (h : d.block.stop < UInt32.size) : d.check =
    if maxAddress + 1 < d.block.stop then .error (.addressOverflow d.current.name) else .ok d := by
  rw [check, Block.toNat_address h]

theorem check_inside (hstop : d.block.stop < UInt32.size) (h : d.check = .ok d') :
    d.block.stop ≤ maxAddress + 1 := by
  rw [check_eq hstop] at h
  split at h
  · cases h
  · omega

/-- A label behind a block inside of the address space gets the address where the block ends. -/
theorem addLine_label (h : d.block.stop ≤ maxAddress + 1) (name : String) :
    d.addLine (.label name) =
      if maxAddress < d.block.stop then .error (.addressOverflow d.current.name)
      else check { d with labels := (name, UInt16.ofNat d.block.stop) :: d.labels } := by
  have hstop := Block.stop_lt h
  rw [addLine, Block.toNat_address hstop, Block.toUInt16_address hstop]

theorem adds_byte (hd : d.current = .music) (b : UInt8) :
    d.Adds (d.setBlock (d.block.append [b])) [.byte b] := by
  have hset : d.setBlock (d.block.append [b]) = { d with music := d.music.append [b] } := by
    simp only [setBlock, block, hd]
  rw [hset]
  exact ⟨rfl, rfl, rfl, by simp [Block.append, Item.bytes], rfl, by simp [labelsFrom], rfl⟩

theorem adds_bytes (hd : d.current = .music) (data : List UInt8) :
    d.Adds (d.setBlock (d.block.append data)) (data.map .byte) := by
  induction data generalizing d with
  | nil =>
    have hset : d.setBlock (d.block.append []) = d := by
      cases d
      simp_all [setBlock, block, Block.append]
    rw [hset]
    exact .refl d
  | cons b data ih =>
    have hb := adds_byte hd b
    have hset : d.setBlock (d.block.append (b :: data)) =
        (d.setBlock (d.block.append [b])).setBlock
          ((d.setBlock (d.block.append [b])).block.append data) := by
      simp [setBlock, block, hd, Block.append]
    rw [hset]
    exact hb.trans (ih (hb.current.trans hd))

theorem adds_word (hd : d.current = .music) (w : Word) : d.Adds (d.addWord w) [.word w] := by
  cases w with
  | value v =>
    have hset : d.addWord (.value v) = { d with music := d.music.append (wordBytes v) } := by
      simp only [addWord, setBlock, block, hd]
    rw [hset]
    exact ⟨rfl, rfl, rfl, by simp [Block.append, Item.bytes], rfl, by simp [labelsFrom], rfl⟩
  | label name =>
    have hset : d.addWord (.label name) =
        { d with
          music := d.music.append [0, 0]
          holes := ⟨.music, d.music.bytes.size, name⟩ :: d.holes } := by
      simp only [addWord, setBlock, block, hd]
    rw [hset]
    exact ⟨rfl, rfl, rfl, by simp [Block.append, Item.bytes, wordBytes], rfl, by simp [labelsFrom],
      rfl⟩

theorem adds_words (hd : d.current = .music) (data : List Word) :
    d.Adds (data.foldl addWord d) (data.map .word) := by
  induction data generalizing d with
  | nil => exact .refl d
  | cons w data ih =>
    have hw := adds_word hd w
    exact hw.trans (ih (hw.current.trans hd))

theorem block_of_music (hd : d.current = .music) : d.block = d.music := by
  simp only [block, hd]

/-- Short items that pass the check are inside of the address space. -/
theorem Adds.inside {items : List Item} {u : Draft} (h : d.Adds u items) (hd : d.current = .music)
    (hin : d.music.stop ≤ maxAddress + 1) (hshort : sizeOf items + (maxAddress + 1) < UInt32.size)
    (hcheck : u.check = .ok d') : d.Adds d' items ∧ d'.music.stop ≤ maxAddress + 1 := by
  have hblock := block_of_music (h.current.trans hd)
  have hstop := h.stop
  rw [← hblock] at hstop
  have hle := check_inside (by omega) hcheck
  rw [check_ok hcheck]
  exact ⟨h, hblock ▸ hle⟩

/-- **Laying out a line of the music adds its items**, and ends inside of the address space. -/
theorem adds_line {line : Line} (hd : d.current = .music) (hin : d.music.stop ≤ maxAddress + 1)
    (hl : line.IsPlain) (h : d.addLine line = .ok d') :
    d.Adds d' line.items ∧ d'.music.stop ≤ maxAddress + 1 := by
  cases line with
  | segment segment base => cases hl
  | align alignment => cases hl
  | comment text =>
    cases h
    exact ⟨.refl d, hin⟩
  | blank =>
    cases h
    exact ⟨.refl d, hin⟩
  | bytes data => exact (adds_bytes hd data).inside hd hin hl h
  | words data => exact (adds_words hd data).inside hd hin hl h
  | label name =>
    have hblock := block_of_music hd
    rw [addLine_label (hblock.symm ▸ hin)] at h
    split at h
    · cases h
    rename_i hfits
    rw [hblock] at hfits h
    rw [check_ok h]
    exact ⟨⟨rfl, rfl, rfl, by simp [Line.items, Item.bytes], rfl,
      by simpa [Line.items, labelsFrom] using hfits, rfl⟩, hin⟩

/-- **Laying out lines of the music adds their items**, and ends inside of the address space. -/
theorem adds_lines {lines : List Line} (hd : d.current = .music)
    (hin : d.music.stop ≤ maxAddress + 1) (hl : ∀ line ∈ lines, line.IsPlain)
    (h : lines.foldlM addLine d = .ok d') :
    d.Adds d' (itemsOf lines) ∧ d'.music.stop ≤ maxAddress + 1 := by
  induction lines generalizing d with
  | nil =>
    cases h
    exact ⟨.refl _, hin⟩
  | cons line lines ih =>
    rw [List.foldlM_cons] at h
    obtain ⟨u, hu, hrest⟩ := bind_ok h
    obtain ⟨hline, hin⟩ := adds_line hd hin (hl line List.mem_cons_self) hu
    obtain ⟨hlines, hin⟩ := ih (hline.current.trans hd) hin
      (fun l hmem => hl l (List.mem_cons_of_mem _ hmem)) hrest
    exact ⟨hline.trans hlines, hin⟩

/-- The music begins inside of the address space. -/
theorem stop_start (base : UInt16) :
    ({ music := { base } } : Draft).music.stop ≤ maxAddress + 1 := by
  have hlt := base.toNat_lt
  simp only [Block.stop, maxAddress, Array.size_empty]
  omega

/-! ## The samples behind the music -/

/-- Whether a line behind the start of the sample segment belongs to it. -/
def isSampleLine : Line → Bool
  | .segment .. | .words _ => false
  | _ => true

/-- What laying out lines in the sample segment leaves of a draft: all but the labels, of which
there may be more. -/
structure Keeps (d d' : Draft) (lines : List Line) : Prop where
  current : d'.current = d.current
  music : d'.music = d.music
  holes : d'.holes = d.holes
  labels : ∃ more, d'.labels = more ++ d.labels ∧ ∀ e ∈ more, .label e.1 ∈ lines

theorem Keeps.refl (d : Draft) (lines : List Line) : d.Keeps d lines :=
  ⟨rfl, rfl, rfl, [], rfl, by simp⟩

theorem keeps_setBlock (hd : d.current = .samples) (b : Block) (lines : List Line) :
    d.Keeps (d.setBlock b) lines := by
  simp only [setBlock, hd]
  exact ⟨hd.symm, rfl, rfl, [], rfl, by simp⟩

theorem keeps_line {line : Line} (hd : d.current = .samples) (hl : isSampleLine line = true)
    (h : d.addLine line = .ok d') : d.Keeps d' [line] := by
  cases line with
  | segment segment base => cases hl
  | words data => cases hl
  | comment text =>
    cases h
    exact .refl _ _
  | blank =>
    cases h
    exact .refl _ _
  | bytes data => exact check_ok h ▸ keeps_setBlock hd _ _
  | label name =>
    simp only [addLine] at h
    split at h
    · cases h
    rw [check_ok h]
    exact ⟨rfl, rfl, rfl, [(name, _)], rfl, by simp⟩
  | align alignment =>
    simp only [addLine] at h
    split at h
    · cases h
    split at h
    · cases h
    cases h
    exact keeps_setBlock hd _ _

theorem keeps_lines {lines : List Line} (hd : d.current = .samples)
    (hl : ∀ line ∈ lines, isSampleLine line = true) (h : lines.foldlM addLine d = .ok d') :
    d.Keeps d' lines := by
  induction lines generalizing d with
  | nil =>
    cases h
    exact .refl _ _
  | cons line lines ih =>
    rw [List.foldlM_cons] at h
    obtain ⟨u, hu, hrest⟩ := bind_ok h
    have hline := keeps_line hd (hl line List.mem_cons_self) hu
    have hlines := ih (hline.current.trans hd) (fun l hmem => hl l (List.mem_cons_of_mem _ hmem))
      hrest
    obtain ⟨first, hfirst, hin⟩ := hline.labels
    obtain ⟨more, hmore, hin'⟩ := hlines.labels
    refine ⟨hlines.current.trans hline.current, hlines.music.trans hline.music,
      hlines.holes.trans hline.holes, more ++ first, by rw [hmore, hfirst, List.append_assoc], ?_⟩
    intro e he
    rcases List.mem_append.1 he with he | he
    · exact List.mem_cons_of_mem _ (hin' e he)
    · rw [List.mem_singleton.1 (hin e he)]
      exact List.mem_cons_self

/-- The lines are those of the sample segment, if there is one. -/
def IsSamples (lines : List Line) : Prop :=
  lines = [] ∨ ∃ base rest, lines = .blank :: .segment .samples base :: rest ∧
    ∀ line ∈ rest, isSampleLine line = true

theorem keeps_samples {lines : List Line} (hl : IsSamples lines)
    (h : lines.foldlM addLine d = .ok d') :
    d'.music = d.music ∧ d'.holes = d.holes ∧
      ∃ more, d'.labels = more ++ d.labels ∧ ∀ e ∈ more, .label e.1 ∈ lines := by
  rcases hl with rfl | ⟨base, rest, rfl, hrest⟩
  · cases h
    exact ⟨rfl, rfl, [], rfl, by simp⟩
  · have hopen : ∃ u : Draft, u.current = .samples ∧ u.music = d.music ∧ u.holes = d.holes ∧
        u.labels = d.labels ∧ rest.foldlM addLine u = .ok d' := by
      refine ⟨d.enter .samples base, ?_, ?_, ?_, ?_, h⟩ <;>
        · unfold enter
          split <;> simp_all
    obtain ⟨u, hcurrent, hmusic, hholes, hlabels, hu⟩ := hopen
    have hkeeps := keeps_lines hcurrent hrest hu
    obtain ⟨more, hmore, hin⟩ := hkeeps.labels
    refine ⟨hkeeps.music.trans hmusic, hkeeps.holes.trans hholes, more, hlabels ▸ hmore, ?_⟩
    exact fun e he => List.mem_cons_of_mem _ (List.mem_cons_of_mem _ (hin e he))

end Draft

/-! ## Filling in the words -/

/-- The last address of a name counts. -/
theorem getElem?_ofList_reverse (labels : List (String × UInt16)) (name : String) :
    (Std.HashMap.ofList labels.reverse)[name]? = labels.lookup name := by
  rw [Std.HashMap.ofList_eq_insertMany_empty, Std.HashMap.getElem?_insertMany_list]
  simp only [List.findSomeRev?_eq_findSome?_reverse, List.reverse_reverse,
    Std.HashMap.getElem?_empty, Option.or_none]
  induction labels with
  | nil => rfl
  | cons e labels ih =>
    rw [List.findSome?_cons, List.lookup_cons, ih, BEq.comm]
    cases name == e.1 <;> rfl

theorem toList_putWord {bytes : Array UInt8} {front back : List UInt8} {x y : UInt8}
    (h : bytes.toList = front ++ x :: y :: back) (w : UInt16) :
    (putWord bytes front.length w).toList = front ++ wordBytes w ++ back := by
  simp [putWord, h, wordBytes]

theorem fillHole_ok {addresses : Std.HashMap String UInt16} {d d' : Draft} {offset : Nat}
    {name : String} (h : fillHole addresses d ⟨.music, offset, name⟩ = .ok d') :
    ∃ address, addresses[name]? = some address ∧
      d' = { d with music.bytes := putWord d.music.bytes offset address } := by
  unfold fillHole at h
  simp only at h
  split at h
  · cases h
  rename_i address haddress
  exact ⟨address, haddress, (Except.ok.inj h).symm⟩

/-- **Filling in the empty words of items gives their bytes.** -/
theorem fill_ok {addresses : Std.HashMap String UInt16} {items : List Item} {front : List UInt8}
    {d d' : Draft} (hd : d.music.bytes.toList = front ++ bytesOf (fun _ => none) items)
    (h : (holesFrom front.length items).foldlM (fillHole addresses) d = .ok d') :
    d'.music.bytes.toList = front ++ bytesOf (addresses[·]?) items ∧ d'.labels = d.labels ∧
      ∀ name, .word (.label name) ∈ items → (addresses[name]?).isSome = true := by
  induction items generalizing front d with
  | nil =>
    cases h
    exact ⟨hd, rfl, by simp⟩
  | cons i items ih =>
    -- what is not empty stays as it is
    have keep : ∀ bytes, i.bytes (fun _ => none) = bytes → i.bytes (addresses[·]?) = bytes →
        holesFrom front.length (i :: items) = holesFrom (front.length + i.size) items →
        (∀ name, i ≠ .word (.label name)) →
        d'.music.bytes.toList = front ++ bytesOf (addresses[·]?) (i :: items) ∧
          d'.labels = d.labels ∧
          ∀ name, .word (.label name) ∈ i :: items → (addresses[name]?).isSome = true := by
      intro bytes hbefore hafter hholes hne
      have hlen : bytes.length = i.size := by rw [← hbefore, Item.length_bytes]
      rw [hholes] at h
      rw [bytesOf_cons, hbefore, ← List.append_assoc] at hd
      obtain ⟨hmusic, hlabels, hall⟩ := ih hd (by rw [List.length_append, hlen]; exact h)
      refine ⟨by rw [hmusic, bytesOf_cons, hafter, List.append_assoc], hlabels, ?_⟩
      intro name hname
      rcases List.mem_cons.1 hname with heq | hname
      · exact absurd heq.symm (hne name)
      · exact hall name hname
    cases i with
    | byte b => exact keep [b] rfl rfl rfl (by simp)
    | label name => exact keep [] rfl rfl rfl (by simp)
    | word w =>
      cases w with
      | value v => exact keep (wordBytes v) rfl rfl rfl (by simp)
      | label name =>
        rw [holesFrom, List.foldlM_cons] at h
        obtain ⟨u, hu, hrest⟩ := bind_ok h
        obtain ⟨address, haddress, rfl⟩ := fillHole_ok hu
        have hput := toList_putWord hd address
        have hlen : (front ++ wordBytes address).length = front.length + 2 := by
          simp [wordBytes]
        rw [← hlen] at hrest
        obtain ⟨hmusic, hlabels, hall⟩ := ih hput hrest
        refine ⟨?_, hlabels, ?_⟩
        · rw [hmusic]
          simp [Item.bytes, haddress]
        · intro n hn
          rcases List.mem_cons.1 hn with heq | hn
          · cases heq
            rw [haddress]
            rfl
          · exact hall n hn

/-- Words can be filled in if their labels are defined. -/
theorem fill_succeeds {addresses : Std.HashMap String UInt16} {holes : List Hole}
    (h : ∀ hole ∈ holes, (addresses[hole.label]?).isSome = true) (d : Draft) :
    ∃ d', holes.foldlM (fillHole addresses) d = .ok d' := by
  refine foldlM_succeeds (fun hole hmem d => ?_) d
  obtain ⟨address, haddress⟩ := Option.isSome_iff_exists.1 (h hole hmem)
  unfold fillHole
  rw [haddress]
  cases hole.segment <;> exact ⟨_, rfl⟩

/-- Filling in a word does not change the size of the music. -/
theorem size_fillHole {addresses : Std.HashMap String UInt16} {d d' : Draft} {hole : Hole}
    (h : fillHole addresses d hole = .ok d') : d'.music.bytes.size = d.music.bytes.size := by
  unfold fillHole at h
  split at h
  · cases h
  · split at h
    · cases h
      simp [putWord]
    · cases h
      rfl

/-- A draft in which every empty word names a label can be completed. -/
theorem assemble_succeeds {lines : List Line} {base : UInt16} {d : Draft}
    (hd : lines.foldlM Draft.addLine { music := { base } } = .ok d)
    (h : ∀ hole ∈ d.holes, (d.labels.lookup hole.label).isSome = true) :
    ∃ image, assemble lines base = .ok image := by
  obtain ⟨filled, hfilled⟩ := @fill_succeeds (Std.HashMap.ofList d.labels.reverse) d.holes.reverse
    (fun hole hmem => by rw [getElem?_ofList_reverse]; exact h hole (List.mem_reverse.1 hmem)) d
  unfold assemble
  rw [hd]
  simp only [bind, Except.bind, hfilled]
  exact ⟨_, rfl⟩

/-- The music of an image has the bytes of its layout. -/
theorem length_assemble {lines : List Line} {base : UInt16} {image : Image}
    (h : assemble lines base = .ok image) :
    ∃ d, lines.foldlM Draft.addLine { music := { base } } = .ok d ∧
      image.music.length = d.music.bytes.size := by
  obtain ⟨d, hd, h⟩ := bind_ok h
  obtain ⟨filled, hfill, h⟩ := bind_ok h
  cases h
  refine ⟨d, hd, ?_⟩
  rw [Array.length_toList]
  have hkeeps : ∀ b hole b', b.music.bytes.size = d.music.bytes.size →
      fillHole (Std.HashMap.ofList d.labels.reverse) b hole = .ok b' →
      b'.music.bytes.size = d.music.bytes.size :=
    fun _ _ _ hsize hfilled => (size_fillHole hfilled).trans hsize
  exact foldlM_keeps (P := fun b => b.music.bytes.size = d.music.bytes.size) hkeeps hfill rfl

/-! ## The image -/

/-- Address of a label. -/
def address (image : Image) (name : String) : Option UInt16 := image.labels.lookup name

/-- What an image of a listing holds whose music has these items and is followed by these lines of
samples. -/
structure Holds (image : Image) (base : UInt16) (items : List Item) (samples : List Line) :
    Prop where
  music : image.music = bytesOf image.address items
  /-- They end inside of the address space. -/
  inside : base.toNat + sizeOf items ≤ maxAddress + 1
  resolved : ∀ name, .word (.label name) ∈ items → (image.address name).isSome = true
  /-- The last label of a name has the address of what stands behind it. -/
  located : ∀ before name after, items = before ++ .label name :: after → .label name ∉ after →
    .label name ∉ samples → ∃ address, image.address name = some address ∧
      address.toNat = base.toNat + sizeOf before

theorem lookup_of_forall_ne {labels rest : List (String × UInt16)} {name : String}
    (h : ∀ e ∈ labels, e.1 ≠ name) : (labels ++ rest).lookup name = rest.lookup name := by
  rw [List.lookup_append, List.lookup_eq_none_iff.2, Option.none_or]
  intro e he
  simpa using (h e he).symm

/-- **What an image holds**: the bytes of the items of its listing, with addresses where labels are
named. -/
theorem assemble_ok {text : String} {base start : UInt16} {lines samples : List Line}
    {image : Image}
    (hl : ∀ line ∈ lines, line.IsPlain) (hs : Draft.IsSamples samples)
    (h : assemble (.comment text :: .segment .music start :: (lines ++ samples)) base = .ok image) :
    image.Holds base (itemsOf lines) samples := by
  obtain ⟨d, hd, h⟩ := bind_ok h
  obtain ⟨filled, hfill, h⟩ := bind_ok h
  cases h
  have hd : (lines ++ samples).foldlM Draft.addLine { music := { base } } = .ok d := hd
  rw [List.foldlM_append] at hd
  obtain ⟨u, hu, hd⟩ := bind_ok hd
  obtain ⟨hadds, hinside⟩ := Draft.adds_lines rfl (Draft.stop_start base) hl hu
  obtain ⟨hmusic, hholes, more, hmore, hin⟩ := Draft.keeps_samples hs hd
  -- the words that are filled in are those of the music
  have hbytes : d.music.bytes.toList = [] ++ bytesOf (fun _ => none) (itemsOf lines) := by
    rw [hmusic, hadds.bytes]
  have hreverse : d.holes.reverse = holesFrom ([] : List UInt8).length (itemsOf lines) := by
    rw [hholes, hadds.holes]
    simp
  rw [hreverse] at hfill
  obtain ⟨hfilled, hlabels, hresolved⟩ := fill_ok hbytes hfill
  have haddress : ∀ name : String, (Std.HashMap.ofList d.labels.reverse)[name]? =
      filled.labels.lookup name := by
    intro name
    rw [getElem?_ofList_reverse, hlabels]
  simp only [haddress] at hfilled hresolved
  have hstart : ({ music := { base } } : Draft).music.stop = base.toNat := by
    simp [Block.stop]
  rw [hadds.stop, hstart] at hinside
  refine ⟨hfilled, hinside, hresolved, ?_⟩
  intro before name after hitems hafter hsamples
  have hfrom : labelsFrom base.toNat (itemsOf lines) =
      labelsFrom base.toNat before ++
        (name, base.toNat + sizeOf before) :: labelsFrom (base.toNat + sizeOf before) after := by
    rw [hitems, labelsFrom_append]
    rfl
  have hfits := hadds.fits (name, base.toNat + sizeOf before) (by rw [hstart, hfrom]; simp)
  refine ⟨UInt16.ofNat (base.toNat + sizeOf before), ?_,
    UInt16.toNat_ofNat_of_lt' (Nat.lt_succ_of_le hfits)⟩
  rw [address, hlabels, hmore, lookup_of_forall_ne, hadds.labels, hstart, hfrom]
  · simp only [defined, List.map_append, List.map_cons, List.reverse_append, List.reverse_cons,
      List.append_assoc]
    rw [lookup_of_forall_ne]
    · simp
    · intro e he
      simp only [List.mem_reverse, List.mem_map] at he
      obtain ⟨e', he', rfl⟩ := he
      rintro rfl
      exact hafter (mem_labelsFrom he')
  · rintro e he rfl
    exact hsamples (hin e he)

end Image

end Chiptune
