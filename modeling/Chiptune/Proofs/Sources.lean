import Chiptune.Listing
import Mathlib.Data.List.ReduceOption
import Std.Data.String.ToNat

/-!
# Reading assembler sources

A source is read line by line: blank lines and comments are dropped, and every other line is a
statement (`Source.read`). A rendered listing is read as the statements of its lines, if each of
them is one line of text (`Line.Legible`).

* `Source.readLine_lineText`: **a line is read as its statement.**
* `Source.read_render`: **so is a listing**.
-/

set_option autoImplicit false

namespace Chiptune

/-- What a line of a source states. -/
inductive Statement
  /-- The following lines belong to a named segment. -/
  | segment (name : String)
  /-- The following lines are laid out from an address on. -/
  | base (address : UInt16)
  | label (name : String)
  | bytes (bytes : List UInt8)
  | words (words : List Word)
  | align (alignment : Nat)
  deriving DecidableEq

/-- Statement that a line of a listing makes in a dialect. -/
def Line.statement (dialect : Dialect) : Line → Option Statement
  | .segment s base =>
    match dialect with
    | .ca65 => some (.segment s.name)
    | .asm6 => some (.base base)
  | .label name => some (.label name)
  | .bytes data => some (.bytes data)
  | .words data => some (.words data)
  | .align alignment => some (.align alignment)
  | .comment _ | .blank => none

/-- Character of an identifier. -/
def isIdentifierChar (c : Char) : Bool := c.isAlphanum || c == '_'

/-- The text is an identifier. -/
def IsIdentifier (cs : List Char) : Prop := cs ≠ [] ∧ cs.all isIdentifierChar = true

instance (cs : List Char) : Decidable (IsIdentifier cs) :=
  inferInstanceAs (Decidable (cs ≠ [] ∧ cs.all isIdentifierChar = true))

theorem IsIdentifier.of_mem {cs : List Char} (h : IsIdentifier cs) {c : Char} (hc : c ∈ cs) :
    isIdentifierChar c = true :=
  List.all_eq_true.1 h.2 c hc

/-- Values of a directive are separated by commas, and there is at least one. A label is an
identifier, and a comment is one line of text. -/
def Line.Legible : Line → Prop
  | .label name => IsIdentifier name.toList
  | .bytes data => data ≠ []
  | .words data => data ≠ [] ∧ ∀ name, .label name ∈ data → IsIdentifier name.toList
  | .comment text => '\n' ∉ text.toList
  | .segment .. | .align _ | .blank => True

namespace Source

/-! ## The reader -/

/-- Value of a hexadecimal digit. -/
def digit (c : Char) : Option Nat := "0123456789ABCDEF".toList.idxOf? c

/-- Value of some hexadecimal digits. -/
def digits (cs : List Char) : Option Nat :=
  cs.foldlM (fun value c => (digit c).map (16 * value + ·)) 0

/-- A number below a bound, in hexadecimal digits behind a dollar sign. -/
def number (bound : Nat) : List Char → Option Nat
  | '$' :: cs => (digits cs).filter (· < bound)
  | _ => none

/-- Name of a label. -/
def name (cs : List Char) : Option String :=
  if IsIdentifier cs then some (String.ofList cs) else none

/-- Operand of a byte directive. -/
def byte (cs : List Char) : Option UInt8 := (number 0x100 cs).map .ofNat

/-- Operand of a word directive. -/
def word (cs : List Char) : Option Word :=
  ((number 0x10000 cs).map fun value => .value (.ofNat value)) <|> (name cs).map .label

/-- Operands that are separated by commas. -/
def operands {α : Type} (operand : List Char → Option α) (cs : List Char) : Option (List α) :=
  (cs.splitOn ',').mapM operand

/-- What stands behind a word and a blank. -/
def behind (word : String) (cs : List Char) : Option (List Char) :=
  (word.toList ++ [' ']).isPrefixOf? cs

/-- A directive with its operands. -/
def directive (dialect : Dialect) (cs : List Char) : Option Statement :=
  ((behind dialect.byteDirective cs).bind fun cs => (operands byte cs).map .bytes) <|>
  ((behind dialect.wordDirective cs).bind fun cs => (operands word cs).map .words) <|>
  (behind dialect.alignDirective cs).bind fun cs => (String.ofList cs).toNat?.map .align

/-- A line that begins a segment. -/
def segment (dialect : Dialect) (cs : List Char) : Option Statement :=
  match dialect with
  | .ca65 => (behind ".segment" cs).bind fun
    | '"' :: cs =>
      if cs.getLast? = some '"' then some (.segment (String.ofList cs.dropLast)) else none
    | _ => none
  | .asm6 => (behind ".base" cs).bind fun cs =>
    (number 0x10000 cs).map fun base => .base (.ofNat base)

/-- A label with the colon behind it. -/
def label (cs : List Char) : Option Statement :=
  if cs.getLast? = some ':' then (name cs.dropLast).map .label else none

/-- A line of a source; a blank line or a comment states nothing. -/
def readLine (dialect : Dialect) : List Char → Option (Option Statement)
  | [] => some none
  | ';' :: _ => some none
  | '\t' :: cs => (directive dialect cs).map some
  | cs => (segment dialect cs <|> label cs).map some

/-- Statements of a source. -/
def read (dialect : Dialect) (text : String) : Option (List Statement) :=
  ((text.toList.splitOn '\n').mapM (readLine dialect)).map List.reduceOption

/-! ## Numbers -/

theorem digit_digit {n : Nat} (h : n < 16) : digit (Hex.digit n) = some n := by
  have hall : ∀ n : Fin 16, digit (Hex.digit n) = some n.val := by decide
  exact hall ⟨n, h⟩

theorem toList_byte (n : Nat) :
    (Hex.byte n).toList = [Hex.digit (n / 16 % 16), Hex.digit (n % 16)] := by
  simp [Hex.byte]

theorem toList_word (n : Nat) : (Hex.word n).toList =
    [Hex.digit (n / 256 / 16 % 16), Hex.digit (n / 256 % 16), Hex.digit (n / 16 % 16),
      Hex.digit (n % 16)] := by
  simp [Hex.word, toList_byte]

theorem number_byte (b : UInt8) :
    number 0x100 ('$' :: (Hex.byte b.toNat).toList) = some b.toNat := by
  have hlt := b.toNat_lt
  have hvalue : 16 * (16 * 0 + b.toNat / 16 % 16) + b.toNat % 16 = b.toNat := by omega
  rw [number, toList_byte, digits]
  simp only [List.foldlM_cons, List.foldlM_nil, digit_digit (Nat.mod_lt _ (by decide : 0 < 16)),
    Option.map_some, Option.bind_eq_bind, Option.bind_some, Option.pure_def, hvalue]
  simp [Option.filter, hlt]

theorem number_word (w : UInt16) :
    number 0x10000 ('$' :: (Hex.word w.toNat).toList) = some w.toNat := by
  have hlt := w.toNat_lt
  have hvalue : 16 * (16 * (16 * (16 * 0 + w.toNat / 256 / 16 % 16) + w.toNat / 256 % 16) +
      w.toNat / 16 % 16) + w.toNat % 16 = w.toNat := by omega
  rw [number, toList_word, digits]
  simp only [List.foldlM_cons, List.foldlM_nil, digit_digit (Nat.mod_lt _ (by decide : 0 < 16)),
    Option.map_some, Option.bind_eq_bind, Option.bind_some, Option.pure_def, hvalue]
  simp [Option.filter, hlt]

theorem toList_byteText (b : UInt8) :
    (Listing.byteText b).toList = '$' :: (Hex.byte b.toNat).toList := by
  simp [Listing.byteText]

theorem byte_byteText (b : UInt8) : byte (Listing.byteText b).toList = some b := by
  rw [toList_byteText, byte, number_byte, Option.map_some, UInt8.ofNat_toNat]

/-- An identifier is no number. -/
theorem number_name {cs : List Char} (h : IsIdentifier cs) (bound : Nat) :
    number bound cs = none := by
  cases cs with
  | nil => rfl
  | cons c cs =>
    have hc := h.of_mem List.mem_cons_self
    unfold number
    split
    · rename_i heq
      cases heq
      cases hc
    · rfl

theorem word_wordText {w : Word} (h : ∀ name, w = .label name → IsIdentifier name.toList) :
    word (Listing.wordText w).toList = some w := by
  cases w with
  | value v =>
    have htext : (Listing.wordText (.value v)).toList = '$' :: (Hex.word v.toNat).toList := by
      simp [Listing.wordText]
    rw [htext, word, number_word]
    simp
  | label n =>
    have hname := h n rfl
    rw [word, Listing.wordText, number_name hname, name, if_pos hname, String.ofList_toList]
    rfl

/-! ## Operands -/

/-- A digit separates nothing. -/
theorem digit_ne {n : Nat} (h : n < 16) : Hex.digit n ≠ ',' ∧ Hex.digit n ≠ '\n' := by
  have hall : ∀ n : Fin 16, Hex.digit n ≠ ',' ∧ Hex.digit n ≠ '\n' := by decide
  exact hall ⟨n, h⟩

theorem notMem_byteText (b : UInt8) :
    ',' ∉ (Listing.byteText b).toList ∧ '\n' ∉ (Listing.byteText b).toList := by
  have hhigh := digit_ne (Nat.mod_lt (b.toNat / 16) (by decide : 0 < 16))
  have hlow := digit_ne (Nat.mod_lt b.toNat (by decide : 0 < 16))
  rw [toList_byteText, toList_byte]
  simp [hhigh.1.symm, hhigh.2.symm, hlow.1.symm, hlow.2.symm]

/-- An identifier separates nothing. -/
theorem notMem_identifier {cs : List Char} (h : IsIdentifier cs) : ',' ∉ cs ∧ '\n' ∉ cs :=
  ⟨fun hmem => absurd (h.of_mem hmem) (by decide), fun hmem => absurd (h.of_mem hmem) (by decide)⟩

theorem notMem_wordText {w : Word} (h : ∀ name, w = .label name → IsIdentifier name.toList) :
    ',' ∉ (Listing.wordText w).toList ∧ '\n' ∉ (Listing.wordText w).toList := by
  cases w with
  | label n => exact notMem_identifier (h n rfl)
  | value v =>
    have htext : (Listing.wordText (.value v)).toList = '$' :: (Hex.word v.toNat).toList := by
      simp [Listing.wordText]
    have hdigit : ∀ n, Hex.digit (n % 16) ≠ ',' ∧ Hex.digit (n % 16) ≠ '\n' := fun n =>
      digit_ne (Nat.mod_lt n (by decide : 0 < 16))
    rw [htext, toList_word]
    simp [(hdigit _).1.symm, (hdigit _).2.symm]

theorem mapM_eq_some {α β : Type} {f : α → Option β} {g : α → β} {xs : List α}
    (h : ∀ x ∈ xs, f x = some (g x)) : xs.mapM f = some (xs.map g) := by
  induction xs with
  | nil => rfl
  | cons x xs ih =>
    rw [List.mapM_cons, h x List.mem_cons_self, ih fun y hy => h y (List.mem_cons_of_mem _ hy)]
    rfl

/-- **Operands are read one by one.** -/
theorem operands_intercalate {α : Type} {operand : List Char → Option α} {text : α → String}
    {xs : List α} (hne : xs ≠ []) (hcomma : ∀ x ∈ xs, ',' ∉ (text x).toList)
    (hread : ∀ x ∈ xs, operand (text x).toList = some x) :
    operands operand (",".intercalate (xs.map text)).toList = some xs := by
  have hcommas : ∀ cs ∈ (xs.map text).map String.toList, ',' ∉ cs := by
    simpa using hcomma
  have hparts : (",".intercalate (xs.map text)).toList.splitOn ',' =
      (xs.map text).map String.toList := by
    rw [String.toList_intercalate]
    exact List.splitOn_intercalate ',' hcommas (by simpa using hne)
  rw [operands, hparts, List.map_map, List.mapM_map]
  exact (mapM_eq_some hread).trans (congrArg some (List.map_id xs))

theorem mem_intercalate {sep : List Char} {parts : List (List Char)} {c : Char}
    (h : c ∈ sep.intercalate parts) : c ∈ sep ∨ ∃ part ∈ parts, c ∈ part := by
  induction parts with
  | nil => cases h
  | cons part parts ih =>
    cases parts with
    | nil => exact .inr ⟨part, List.mem_cons_self, by simpa [List.intercalate] using h⟩
    | cons next parts =>
      rw [List.intercalate_cons_cons, List.mem_append, List.mem_append] at h
      rcases h with (h | h) | h
      · exact .inr ⟨part, List.mem_cons_self, h⟩
      · exact .inl h
      · rcases ih h with h | ⟨other, hother, h⟩
        · exact .inl h
        · exact .inr ⟨other, List.mem_cons_of_mem _ hother, h⟩

/-- No operand ends the line. -/
theorem notMem_intercalate {α : Type} {text : α → String} {xs : List α}
    (h : ∀ x ∈ xs, '\n' ∉ (text x).toList) :
    '\n' ∉ (",".intercalate (xs.map text)).toList := by
  rw [String.toList_intercalate]
  intro hmem
  rcases mem_intercalate hmem with hmem | ⟨part, hpart, hmem⟩
  · exact absurd hmem (by decide)
  · simp only [List.map_map, List.mem_map, Function.comp_apply] at hpart
    obtain ⟨x, hx, rfl⟩ := hpart
    exact h x hx hmem

/-! ## Directives -/

theorem behind_append (word : String) (cs : List Char) :
    behind word (word.toList ++ ' ' :: cs) = some cs := by
  rw [behind, List.isPrefixOf?_eq_some_iff_append_eq, List.append_assoc]
  rfl

/-- The directives have different names. -/
theorem behind_ne (dialect : Dialect) (cs : List Char) :
    behind dialect.byteDirective (dialect.wordDirective.toList ++ ' ' :: cs) = none ∧
    behind dialect.byteDirective (dialect.alignDirective.toList ++ ' ' :: cs) = none ∧
    behind dialect.wordDirective (dialect.alignDirective.toList ++ ' ' :: cs) = none := by
  cases dialect <;> exact ⟨rfl, rfl, rfl⟩

/-- A directive is read with its operands. -/
theorem directive_bytes (dialect : Dialect) {cs : List Char} {data : List UInt8}
    (h : operands byte cs = some data) :
    directive dialect (dialect.byteDirective.toList ++ ' ' :: cs) = some (.bytes data) := by
  rw [directive, behind_append, Option.bind_some, h]
  rfl

theorem directive_words (dialect : Dialect) {cs : List Char} {data : List Word}
    (h : operands word cs = some data) :
    directive dialect (dialect.wordDirective.toList ++ ' ' :: cs) = some (.words data) := by
  rw [directive, (behind_ne dialect _).1, behind_append, Option.bind_none, Option.bind_some, h]
  rfl

theorem directive_align (dialect : Dialect) {cs : List Char} {alignment : Nat}
    (h : (String.ofList cs).toNat? = some alignment) :
    directive dialect (dialect.alignDirective.toList ++ ' ' :: cs) = some (.align alignment) := by
  rw [directive, (behind_ne dialect _).2.1, (behind_ne dialect _).2.2, behind_append,
    Option.bind_none, Option.bind_none, Option.bind_some, h]
  rfl

theorem readLine_tab (dialect : Dialect) (cs : List Char) :
    readLine dialect ('\t' :: cs) = (directive dialect cs).map some := rfl

/-- A line that begins with another character begins a segment or is a label. -/
theorem readLine_cons (dialect : Dialect) {c : Char} (hcomment : c ≠ ';') (htab : c ≠ '\t')
    (cs : List Char) :
    readLine dialect (c :: cs) = (segment dialect (c :: cs) <|> label (c :: cs)).map some := by
  unfold readLine
  split
  · rename_i heq
    cases heq
  · rename_i heq
    exact absurd (List.cons.inj heq).1 hcomment
  · rename_i heq
    exact absurd (List.cons.inj heq).1 htab
  · rfl

/-! ## Texts of lines -/

/-- Characters of a directive with its operands. -/
theorem toList_directive (word text : String) :
    ("\t" ++ word ++ " " ++ text).toList = '\t' :: (word.toList ++ ' ' :: text.toList) := by
  simp

theorem toList_bytes (dialect : Dialect) (data : List UInt8) :
    (Listing.lineText dialect (.bytes data)).toList = '\t' :: (dialect.byteDirective.toList ++
      ' ' :: (",".intercalate (data.map Listing.byteText)).toList) :=
  toList_directive _ _

theorem toList_words (dialect : Dialect) (data : List Word) :
    (Listing.lineText dialect (.words data)).toList = '\t' :: (dialect.wordDirective.toList ++
      ' ' :: (",".intercalate (data.map Listing.wordText)).toList) :=
  toList_directive _ _

theorem toList_align (dialect : Dialect) (alignment : Nat) :
    (Listing.lineText dialect (.align alignment)).toList =
      '\t' :: (dialect.alignDirective.toList ++ ' ' :: (toString alignment).toList) :=
  toList_directive _ _

theorem toList_base (s : Segment) (base : UInt16) :
    (Listing.lineText .asm6 (.segment s base)).toList =
      '.' :: ("base".toList ++ ' ' :: '$' :: (Hex.word base.toNat).toList) :=
  String.toList_append

theorem toList_label (dialect : Dialect) (n : String) :
    (Listing.lineText dialect (.label n)).toList = n.toList ++ [':'] :=
  String.toList_append

theorem toList_comment (dialect : Dialect) (text : String) :
    (Listing.lineText dialect (.comment text)).toList = ';' :: ' ' :: text.toList :=
  String.toList_append

/-! ## Lines -/

theorem readLine_bytes (dialect : Dialect) {data : List UInt8} (h : data ≠ []) :
    readLine dialect (Listing.lineText dialect (.bytes data)).toList =
      some (some (.bytes data)) := by
  have hread := operands_intercalate h (fun b _ => (notMem_byteText b).1)
    fun b _ => byte_byteText b
  rw [toList_bytes, readLine_tab, directive_bytes dialect hread]
  rfl

theorem readLine_words (dialect : Dialect) {data : List Word} (h : data ≠ [])
    (hnames : ∀ name, .label name ∈ data → IsIdentifier name.toList) :
    readLine dialect (Listing.lineText dialect (.words data)).toList =
      some (some (.words data)) := by
  have hname : ∀ w ∈ data, ∀ name, w = .label name → IsIdentifier name.toList :=
    fun w hw name hn => hnames name (hn ▸ hw)
  have hread := operands_intercalate h (fun w hw => (notMem_wordText (hname w hw)).1)
    fun w hw => word_wordText (hname w hw)
  rw [toList_words, readLine_tab, directive_words dialect hread]
  rfl

theorem readLine_align (dialect : Dialect) (alignment : Nat) :
    readLine dialect (Listing.lineText dialect (.align alignment)).toList =
      some (some (.align alignment)) := by
  have hread : (String.ofList (toString alignment).toList).toNat? = some alignment := by
    rw [String.ofList_toList]
    exact Nat.toNat?_repr alignment
  rw [toList_align, readLine_tab, directive_align dialect hread]
  rfl

/-- A line that begins a segment is read. -/
theorem readLine_segment (dialect : Dialect) (s : Segment) (base : UInt16) :
    readLine dialect (Listing.lineText dialect (.segment s base)).toList =
      some ((Line.segment s base).statement dialect) := by
  cases dialect with
  | ca65 =>
    have hname : readLine .ca65 (".segment \"" ++ s.name ++ "\"").toList =
        some (some (.segment s.name)) := by
      cases s <;> decide
    exact hname
  | asm6 =>
    have hbehind : behind ".base" ('.' :: ("base".toList ++ ' ' :: '$' ::
        (Hex.word base.toNat).toList)) = some ('$' :: (Hex.word base.toNat).toList) :=
      behind_append ".base" _
    rw [toList_base, readLine_cons .asm6 (by decide) (by decide), segment, hbehind,
      Option.bind_some, number_word, Option.map_some, UInt16.ofNat_toNat]
    rfl

/-- A label is read: an identifier begins no segment, comment or directive. -/
theorem readLine_label (dialect : Dialect) {n : String} (h : IsIdentifier n.toList) :
    readLine dialect (Listing.lineText dialect (.label n)).toList = some (some (.label n)) := by
  have hlabel : label (n.toList ++ [':']) = some (.label n) := by
    rw [label, List.getLast?_concat, if_pos rfl, List.dropLast_concat, name, if_pos h,
      String.ofList_toList]
    rfl
  rw [toList_label]
  cases hcs : n.toList with
  | nil => exact absurd hcs h.1
  | cons c cs =>
    rw [hcs] at hlabel h
    have hc := h.of_mem List.mem_cons_self
    have hne : ∀ other, isIdentifierChar other = false → c ≠ other := by
      rintro other hother rfl
      exact absurd hc (by simp [hother])
    have hdot : ('.' == c) = false := beq_eq_false_iff_ne.2 (hne '.' rfl).symm
    have hsegment : ∀ tail, segment dialect (c :: tail) = none := by
      intro tail
      cases dialect <;> simp [segment, behind, List.isPrefixOf?, hdot]
    rw [List.cons_append, readLine_cons dialect (hne ';' rfl) (hne '\t' rfl), hsegment,
      ← List.cons_append, hlabel]
    rfl

/-- **A line is read as its statement.** -/
theorem readLine_lineText (dialect : Dialect) {line : Line} (h : line.Legible) :
    readLine dialect (Listing.lineText dialect line).toList = some (line.statement dialect) := by
  cases line with
  | segment s base => exact readLine_segment dialect s base
  | label n => exact readLine_label dialect h
  | bytes data => exact readLine_bytes dialect h
  | words data => exact readLine_words dialect h.1 h.2
  | align alignment => exact readLine_align dialect alignment
  | comment text =>
    rw [toList_comment]
    rfl
  | blank => rfl

/-- What stands behind a directive does not end its line. -/
theorem notMem_directive {word : String} {cs : List Char} (hword : '\n' ∉ word.toList)
    (hcs : '\n' ∉ cs) : '\n' ∉ '\t' :: (word.toList ++ ' ' :: cs) := by
  simp only [List.mem_cons, List.mem_append, not_or]
  exact ⟨by decide, hword, by decide, hcs⟩

/-- A line is one line of text. -/
theorem notMem_lineText (dialect : Dialect) {line : Line} (h : line.Legible) :
    '\n' ∉ (Listing.lineText dialect line).toList := by
  have hword : '\n' ∉ dialect.byteDirective.toList ∧ '\n' ∉ dialect.wordDirective.toList ∧
      '\n' ∉ dialect.alignDirective.toList := by
    cases dialect <;> decide
  cases line with
  | segment s base =>
    cases dialect with
    | ca65 =>
      have hname : '\n' ∉ (".segment \"" ++ s.name ++ "\"").toList := by
        cases s <;> decide
      exact hname
    | asm6 =>
      have hdigit : ∀ n, Hex.digit (n % 16) ≠ '\n' := fun n =>
        (digit_ne (Nat.mod_lt n (by decide : 0 < 16))).2
      rw [toList_base, toList_word]
      simp [(hdigit _).symm]
  | label n =>
    rw [toList_label]
    simpa using (notMem_identifier h).2
  | bytes data =>
    rw [toList_bytes]
    exact notMem_directive hword.1 (notMem_intercalate fun b _ => (notMem_byteText b).2)
  | words data =>
    rw [toList_words]
    exact notMem_directive hword.2.1 (notMem_intercalate fun w hw =>
      (notMem_wordText fun name hn => h.2 name (hn ▸ hw)).2)
  | align alignment =>
    rw [toList_align]
    refine notMem_directive hword.2.2 fun hmem => ?_
    have hdigits : '\n' ∈ Nat.toDigits 10 alignment := by simpa using hmem
    exact absurd (Nat.isDigit_of_mem_toDigits (by decide) (by decide) hdigits) (by decide)
  | comment text =>
    have htext : '\n' ∉ text.toList := h
    rw [toList_comment]
    simpa using htext
  | blank => exact List.not_mem_nil

/-! ## Sources -/

/-- Characters of a rendered listing: those of its lines, each with its end. -/
theorem toList_render (dialect : Dialect) (lines : List Line) :
    (Listing.render dialect lines).toList =
      lines.flatMap fun line => (Listing.lineText dialect line).toList ++ ['\n'] := by
  have hfold : ∀ text : String, (lines.foldl
      (fun text line => text ++ (Listing.lineText dialect line ++ "\n")) text).toList =
        text.toList ++
          lines.flatMap fun line => (Listing.lineText dialect line).toList ++ ['\n'] := by
    intro text
    induction lines generalizing text with
    | nil => simp
    | cons line lines ih =>
      rw [List.foldl_cons, ih, List.flatMap_cons, String.toList_append, String.toList_append,
        List.append_assoc]
      rfl
  exact (hfold "").trans (by simp)

/-- **A rendered listing is read as the statements of its lines.** -/
theorem read_render (dialect : Dialect) {lines : List Line} (h : ∀ line ∈ lines, line.Legible) :
    read dialect (Listing.render dialect lines) =
      some (lines.filterMap (Line.statement dialect)) := by
  have hsplit : (Listing.render dialect lines).toList.splitOn '\n' =
      lines.map (fun line => (Listing.lineText dialect line).toList) ++ [[]] := by
    rw [toList_render]
    induction lines with
    | nil => rfl
    | cons line lines ih =>
      rw [List.flatMap_cons, List.append_assoc, List.singleton_append,
        List.splitOn_append_cons_self_of_not_mem
          (notMem_lineText dialect (h line List.mem_cons_self)),
        ih fun l hl => h l (List.mem_cons_of_mem _ hl)]
      rfl
  have hmap : (lines.map fun line => (Listing.lineText dialect line).toList).mapM
      (readLine dialect) = some (lines.map (Line.statement dialect)) := by
    rw [List.mapM_map]
    exact mapM_eq_some fun line hline => readLine_lineText dialect (h line hline)
  rw [read, hsplit, List.mapM_append, hmap]
  simp [readLine, List.reduceOption, List.filterMap_map]

end Source

end Chiptune
