import Chiptune.CommandLine
import Mathlib.Data.List.Basic
import Mathlib.Tactic.IntervalCases

/-!
# Strings and numbers of JSON texts

A string is written with an escape for every character that needs one, and read by two readers: one
looks for its end and one for its bytes. Both step over the bytes that stand for a character
(`Spells`). A number is written with its decimal digits, and ends where no digit, point or exponent
follows (`Ends`).

* `Json.textBytes_eq`, `Json.utf8Text_utf8`: the bytes of a text are those of its characters, and
  make up the text.
* `Json.spells_escapeChar`: every character is spelled by its escape.
* `Json.stringPart_quote`: **a written string is read back**, whatever its characters.
* `Json.numeral_digits`: **a written number is read back**, if it is within a machine word.
-/

set_option autoImplicit false

namespace Chiptune.Json

open CommandLine (textBytes)

/-! ## Bytes of characters -/

/-- Bytes of characters in UTF-8. -/
def utf8 (cs : List Char) : List UInt8 := cs.flatMap String.utf8EncodeChar

@[simp]
theorem utf8_nil : utf8 [] = [] := rfl

@[simp]
theorem utf8_cons (c : Char) (cs : List Char) :
    utf8 (c :: cs) = String.utf8EncodeChar c ++ utf8 cs := rfl

@[simp]
theorem utf8_append (cs ds : List Char) : utf8 (cs ++ ds) = utf8 cs ++ utf8 ds := by
  simp [utf8]

theorem utf8_ascii {cs : List Char} (h : ∀ c ∈ cs, c.toNat < 128) :
    utf8 cs = cs.map fun c => UInt8.ofNat c.toNat := by
  induction cs with
  | nil => rfl
  | cons c cs ih =>
    have hval : c.val.toNat = c.toNat := rfl
    have hc : c.val.toNat ≤ 0x7F := Nat.le_of_lt_succ (h c List.mem_cons_self)
    rw [utf8_cons, List.map_cons, ih fun d hd => h d (List.mem_cons_of_mem _ hd),
      String.utf8EncodeChar, if_pos hc, hval]
    rfl

/-! ## Bytes of a text -/

theorem toList_data_utf8Encode (cs : List Char) : cs.utf8Encode.data.toList = utf8 cs := by
  simp [List.utf8Encode, utf8]

theorem toList_loop (bytes : ByteArray) (n : Nat) : ∀ (i : Nat) (r : List UInt8),
    bytes.size - i = n →
      ByteArray.toList.loop bytes i r = r.reverse ++ bytes.data.toList.drop i := by
  induction n with
  | zero =>
    intro i r hn
    have hlen : bytes.data.toList.length ≤ i := Nat.sub_eq_zero_iff_le.1 hn
    rw [ByteArray.toList.loop, if_neg (by omega), List.drop_of_length_le hlen, List.append_nil]
  | succ n ih =>
    intro i r hn
    have hi : i < bytes.data.toList.length := by
      have : i < bytes.size := by omega
      exact this
    have hget : bytes.get! i = bytes.data.toList[i] := by
      show bytes.data[i]! = _
      rw [getElem!_pos bytes.data i hi, Array.getElem_toList]
    rw [ByteArray.toList.loop, if_pos (by omega), ih _ _ (by omega), List.drop_eq_getElem_cons hi]
    simp [hget]

/-- The bytes of a text are those of its characters. -/
theorem textBytes_eq (s : String) : textBytes s = utf8 s.toList := by
  show s.toByteArray.toList = _
  conv_lhs => rw [← String.ofList_toList (s := s), String.toByteArray_ofList]
  rw [ByteArray.toList, toList_loop _ _ 0 [] rfl, toList_data_utf8Encode]
  rfl

/-- The bytes of characters are a text. -/
theorem utf8Text_utf8 (cs : List Char) : utf8Text (utf8 cs) = some (String.ofList cs) := by
  have hbytes : (⟨(utf8 cs).toArray⟩ : ByteArray) = cs.utf8Encode := by
    rw [← toList_data_utf8Encode]
  rw [utf8Text, hbytes, String.fromUTF8?, dif_pos ByteArray.isValidUTF8_utf8Encode]
  congr 1

/-! ## Strings -/

/-- Byte that stands for itself inside a string. -/
def IsPlain (b : UInt8) : Prop := 0x20 ≤ b.toNat ∧ b ≠ 0x22 ∧ b ≠ 0x5C

theorem isPlain_of_le {b : UInt8} (h : 0x80 ≤ b.toNat) : IsPlain b := by
  refine ⟨by omega, ?_, ?_⟩ <;> rintro rfl <;> simp at h

theorem skipString_plain {b : UInt8} (h : IsPlain b) (rest : List UInt8) :
    skipString (b :: rest) = skipString rest := by
  obtain ⟨hlow, hquote, hslash⟩ := h
  have hb : ¬ b < 0x20 := by simpa [UInt8.lt_iff_toNat_lt] using hlow
  -- Behind the quote, every pattern before the last one begins with a backslash.
  rw [skipString]
  · rw [if_neg hb]
  · exact fun h => hquote h
  · exact fun _ _ _ _ _ h => absurd h hslash
  · exact fun _ _ h => absurd h hslash
  · exact fun h => absurd h hslash

theorem stringBytes_plain {b : UInt8} (h : IsPlain b) (rest : List UInt8) :
    stringBytes (b :: rest) = (b :: ·) <$> stringBytes rest := by
  obtain ⟨hlow, hquote, hslash⟩ := h
  have hb : ¬ b < 0x20 := by simpa [UInt8.lt_iff_toNat_lt] using hlow
  rw [stringBytes]
  · rw [if_neg hb]
    cases stringBytes rest <;> rfl
  · exact fun h => hquote h
  · exact fun _ _ _ _ _ h => absurd h hslash
  · exact fun _ _ h => absurd h hslash
  · exact fun h => absurd h hslash

theorem skipString_allPlain {bytes : List UInt8} (h : ∀ b ∈ bytes, IsPlain b)
    (rest : List UInt8) : skipString (bytes ++ rest) = skipString rest := by
  induction bytes with
  | nil => rfl
  | cons b bytes ih =>
    rw [List.cons_append, skipString_plain (h b List.mem_cons_self),
      ih fun b hb => h b (List.mem_cons_of_mem _ hb)]

theorem stringBytes_allPlain {bytes : List UInt8} (h : ∀ b ∈ bytes, IsPlain b)
    (rest : List UInt8) : stringBytes (bytes ++ rest) = (bytes ++ ·) <$> stringBytes rest := by
  induction bytes with
  | nil => cases h : stringBytes rest <;> simp [h]
  | cons b bytes ih =>
    rw [List.cons_append, stringBytes_plain (h b List.mem_cons_self),
      ih fun b hb => h b (List.mem_cons_of_mem _ hb)]
    cases stringBytes rest <;> rfl

/-- The bytes of a character that is not escaped stand for themselves. -/
theorem isPlain_utf8EncodeChar {c : Char} (hlow : 32 ≤ c.toNat) (hquote : c ≠ '"')
    (hslash : c ≠ '\\') : ∀ b ∈ String.utf8EncodeChar c, IsPlain b := by
  have hval : c.val.toNat = c.toNat := rfl
  have hq : c.toNat ≠ 0x22 := fun h => hquote (Char.toNat_inj.1 h)
  have hs : c.toNat ≠ 0x5C := fun h => hslash (Char.toNat_inj.1 h)
  intro b hb
  unfold String.utf8EncodeChar at hb
  simp only [hval] at hb
  split_ifs at hb
  · obtain rfl := List.mem_singleton.1 hb
    have hnat : (UInt8.ofNat c.toNat).toNat = c.toNat := by
      rw [UInt8.toNat_ofNat']
      omega
    refine ⟨by omega, fun h => hq ?_, fun h => hs ?_⟩
    · rw [← hnat, h]
      rfl
    · rw [← hnat, h]
      rfl
  all_goals
    apply isPlain_of_le
    simp only [List.mem_cons, List.not_mem_nil, or_false] at hb
    rcases hb with rfl | rfl | rfl | rfl <;> rw [UInt8.toNat_ofNat'] <;> omega

/-- Control characters are written with four hexadecimal digits. -/
theorem hexUnit_hexDigit : ∀ n < 32, ∃ high low,
    utf8 [hexDigit (n / 16), hexDigit (n % 16)] = [high, low] ∧
      hexUnit 0x30 0x30 high low = some n := by
  intro n hn
  interval_cases n <;> exact ⟨_, _, rfl, rfl⟩

theorem skipString_simple {e byte : UInt8} (h : simpleEscape e = some byte) (rest : List UInt8) :
    skipString (0x5C :: e :: rest) = skipString rest := by
  have he : e ≠ 0x75 := by
    rintro rfl
    simp [simpleEscape] at h
  rw [skipString]
  · rw [if_neg he, h, Option.isSome_some, if_pos rfl]
  · exact fun _ _ _ _ _ h => absurd h he

theorem stringBytes_simple {e byte : UInt8} (h : simpleEscape e = some byte)
    (rest : List UInt8) :
    stringBytes (0x5C :: e :: rest) = ([byte] ++ ·) <$> stringBytes rest := by
  have he : e ≠ 0x75 := by
    rintro rfl
    simp [simpleEscape] at h
  rw [stringBytes]
  · rw [if_neg he, h]
    cases stringBytes rest <;> rfl
  · exact fun _ _ _ _ _ h => absurd h he

/-- Bytes inside a string that stand for a character: both readers step over them, and the text gets
the character. -/
def Spells (c : Char) (bytes : List UInt8) : Prop :=
  ∀ rest, skipString (bytes ++ rest) = skipString rest ∧
    stringBytes (bytes ++ rest) = (String.utf8EncodeChar c ++ ·) <$> stringBytes rest

theorem spells_simple {text : String} (letter : Char) {c : Char} {byte : UInt8}
    (htext : text.toList = ['\\', letter]) (hletter : letter.toNat < 128)
    (h : simpleEscape (UInt8.ofNat letter.toNat) = some byte)
    (hc : String.utf8EncodeChar c = [byte]) : Spells c (utf8 text.toList) := by
  have hascii : ∀ d ∈ ['\\', letter], d.toNat < 128 := by simpa using hletter
  rw [htext, utf8_ascii hascii]
  exact fun rest => ⟨skipString_simple h rest, hc ▸ stringBytes_simple h rest⟩

theorem spells_control {c : Char} (h : c.toNat < 32) :
    Spells c (utf8 ['\\', 'u', '0', '0', hexDigit (c.toNat / 16), hexDigit (c.toNat % 16)]) := by
  intro rest
  obtain ⟨high, low, hbytes, hunit⟩ := hexUnit_hexDigit c.toNat h
  have hall : utf8 ['\\', 'u', '0', '0', hexDigit (c.toNat / 16), hexDigit (c.toNat % 16)] =
      [0x5C, 0x75, 0x30, 0x30, high, low] :=
    congrArg ([0x5C, 0x75, 0x30, 0x30] ++ ·) hbytes
  have htrailing : isTrailing c.toNat = false := by
    simp only [isTrailing, Bool.and_eq_false_iff, decide_eq_false_iff_not]
    omega
  have hleading : isLeading c.toNat = false := by
    simp only [isLeading, Bool.and_eq_false_iff, decide_eq_false_iff_not]
    omega
  rw [hall]
  constructor
  · simp [skipString, hunit]
  · simp only [List.cons_append, List.nil_append, stringBytes, hunit, htrailing, hleading,
      Char.ofNat_toNat]
    cases stringBytes rest <;> rfl

/-- Every character is spelled by its escape. -/
theorem spells_escapeChar (c : Char) : Spells c (utf8 (escapeChar c).toList) := by
  unfold escapeChar
  split_ifs with hquote hslash hline hreturn htab hback hfeed hcontrol
  · exact hquote ▸ spells_simple '"' (by simp) (by decide) rfl rfl
  · exact hslash ▸ spells_simple '\\' (by simp) (by decide) rfl rfl
  · exact hline ▸ spells_simple 'n' (by simp) (by decide) rfl rfl
  · exact hreturn ▸ spells_simple 'r' (by simp) (by decide) rfl rfl
  · exact htab ▸ spells_simple 't' (by simp) (by decide) rfl rfl
  · exact hback ▸ spells_simple 'b' (by simp) (by decide) rfl rfl
  · exact hfeed ▸ spells_simple 'f' (by simp) (by decide) rfl rfl
  · rw [String.toList_append, String.toList_ofList]
    simpa using spells_control hcontrol
  · intro rest
    have hplain := isPlain_utf8EncodeChar (by omega) hquote hslash
    simp only [String.toList_singleton, utf8_cons, utf8_nil, List.append_nil]
    exact ⟨skipString_allPlain hplain rest, stringBytes_allPlain hplain rest⟩

theorem toList_quote (s : String) :
    (quote s).toList = '"' :: s.toList.flatMap (fun c => (escapeChar c).toList) ++ ['"'] := by
  have hfold : ∀ (cs : List Char) (text : String),
      (cs.foldl (fun text c => text ++ escapeChar c) text).toList =
        text.toList ++ cs.flatMap fun c => (escapeChar c).toList := by
    intro cs
    induction cs with
    | nil => simp
    | cons c cs ih => intro text; simp [ih]
  simp [quote, hfold]

/-- Between its quotes, a written string is read as its characters. -/
theorem read_quoted (cs : List Char) (rest : List UInt8) :
    skipString (utf8 (cs.flatMap fun c => (escapeChar c).toList) ++ 0x22 :: rest) = .ok rest ∧
      stringBytes (utf8 (cs.flatMap fun c => (escapeChar c).toList) ++ 0x22 :: rest) =
        .ok (utf8 cs) := by
  induction cs with
  | nil => exact ⟨rfl, rfl⟩
  | cons c cs ih =>
    obtain ⟨hskip, hbytes⟩ := spells_escapeChar c
      (utf8 (cs.flatMap fun c => (escapeChar c).toList) ++ 0x22 :: rest)
    rw [List.flatMap_cons, utf8_append, List.append_assoc, hskip, hbytes, ih.1, ih.2]
    exact ⟨rfl, rfl⟩

/-- **A written string is read back**, with what follows it. -/
theorem stringPart_quote (s : String) (rest : List UInt8) :
    ∃ inner, textBytes (quote s) ++ rest = 0x22 :: inner ∧
      stringPart inner = .ok (.ok s, rest) := by
  obtain ⟨hskip, hbytes⟩ := read_quoted s.toList rest
  refine ⟨utf8 (s.toList.flatMap fun c => (escapeChar c).toList) ++ 0x22 :: rest, ?_, ?_⟩
  · have hquote : utf8 ['"'] = [0x22] := rfl
    rw [textBytes_eq, toList_quote, ← List.singleton_append, utf8_append, utf8_append, hquote]
    simp
  · have htext := utf8Text_utf8 s.toList
    rw [String.ofList_toList] at htext
    rw [stringPart, hskip, stringText, hbytes]
    simp only [bind, Except.bind, htext]

/-! ## Numbers -/

/-- Bytes of the decimal digits of a number. -/
def digits (n : Nat) : List UInt8 := (Nat.toDigits 10 n).map fun c => UInt8.ofNat c.toNat

theorem isDigit_ofNat {c : Char} (h : c.isDigit) :
    isDigit (UInt8.ofNat c.toNat) = true ∧
      Numeral.digitValue (UInt8.ofNat c.toNat) = c.toNat - 48 := by
  have hc : 48 ≤ c.toNat ∧ c.toNat ≤ 57 := by
    simpa [Char.isDigit, UInt32.le_iff_toNat_le] using h
  have hnat : (UInt8.ofNat c.toNat).toNat = c.toNat := by
    rw [UInt8.toNat_ofNat']
    omega
  constructor
  · simpa [isDigit, UInt8.le_iff_toNat_le, hnat] using hc
  · rw [Numeral.digitValue, hnat]

theorem isDigit_of_mem_toDigits {n : Nat} {c : Char} (h : c ∈ Nat.toDigits 10 n) : c.isDigit :=
  Nat.isDigit_of_mem_toDigits (by decide) (by decide) h

theorem isDigit_of_mem_digits {n : Nat} {b : UInt8} (h : b ∈ digits n) : isDigit b = true := by
  obtain ⟨c, hc, rfl⟩ := List.mem_map.1 h
  exact (isDigit_ofNat (isDigit_of_mem_toDigits hc)).1

theorem textBytes_nat (n : Nat) : textBytes (toString n) = digits n := by
  rw [textBytes_eq, Nat.toString_eq_ofList_toDigits, String.toList_ofList, utf8_ascii]
  · rfl
  · intro c hc
    have hdigit : 48 ≤ c.toNat ∧ c.toNat ≤ 57 := by
      simpa [Char.isDigit, UInt32.le_iff_toNat_le] using isDigit_of_mem_toDigits hc
    omega

theorem le_ofDigitChars (cs : List Char) (n : Nat) : n ≤ Nat.ofDigitChars 10 cs n := by
  induction cs generalizing n with
  | nil => simp
  | cons c cs ih =>
    have h := ih (10 * n + (c.toNat - '0'.toNat))
    rw [Nat.ofDigitChars_cons]
    omega

/-- Digits that stay within a machine word are all gathered. -/
theorem gather_of_lt {cs : List Char} (hcs : ∀ c ∈ cs, c.isDigit) {n : Nat}
    (h : Nat.ofDigitChars 10 cs n < Numeral.wordRange) :
    Numeral.gather n (cs.map fun c => UInt8.ofNat c.toNat) = (Nat.ofDigitChars 10 cs n, 0) := by
  induction cs generalizing n with
  | nil => rfl
  | cons c cs ih =>
    have hvalue := (isDigit_ofNat (hcs c List.mem_cons_self)).2
    rw [Nat.ofDigitChars_cons] at h ⊢
    have hnext : 10 * n + (c.toNat - 48) < Numeral.wordRange :=
      Nat.lt_of_le_of_lt (le_ofDigitChars cs _) h
    rw [List.map_cons, Numeral.gather, hvalue]
    exact (if_pos hnext).trans (ih (fun d hd => hcs d (List.mem_cons_of_mem _ hd)) h)

theorem gather_digits {n : Nat} (h : n < Numeral.wordRange) :
    Numeral.gather 0 (digits n) = (n, 0) := by
  have hgather := gather_of_lt (n := 0) fun c => isDigit_of_mem_toDigits (n := n) (c := c)
  rw [Nat.ofDigitChars_ten_toDigits] at hgather
  exact hgather h

theorem digits_ne_nil (n : Nat) : digits n ≠ [] := by
  simp [digits, Nat.toDigits_ne_nil]

/-- A number above zero does not begin with a zero. -/
theorem head?_digits {n : Nat} (hpos : 0 < n) : (digits n).head? ≠ some 0x30 := by
  induction n using Nat.strongRecOn with
  | ind n ih =>
    by_cases hn : n < 10
    · rw [digits, Nat.toDigits_of_lt_base hn]
      interval_cases n <;> decide
    · have hsplit : digits n = digits (n / 10) ++ digits (n % 10) := by
        rw [digits, Nat.toDigits_of_base_le (by decide) (by omega), List.map_append, digits, digits,
          Nat.toDigits_of_lt_base (Nat.mod_lt n (by decide))]
      rw [hsplit, List.head?_append_of_ne_nil _ (digits_ne_nil _)]
      exact ih (n / 10) (by omega) (by omega)

/-- What may follow a value inside a compact text: nothing, a comma or a closing bracket. -/
def Ends (rest : List UInt8) : Prop :=
  ∀ b ∈ rest.head?, b = 0x2C ∨ b = 0x5D ∨ b = 0x7D

theorem ends_cons {b : UInt8} {rest : List UInt8} (h : b = 0x2C ∨ b = 0x5D ∨ b = 0x7D) :
    Ends (b :: rest) := by
  intro c hc
  obtain rfl : b = c := by simpa using hc
  exact h

theorem ends_nil : Ends [] := by
  intro c hc
  simp at hc

theorem someDigits_digits (n : Nat) {rest : List UInt8} (hrest : Ends rest) :
    someDigits (digits n ++ rest) = .ok (digits n, rest) := by
  have hall : ∀ b ∈ digits n, isDigit b = true := fun b => isDigit_of_mem_digits
  have hnone : rest.takeWhile isDigit = [] ∧ rest.dropWhile isDigit = rest := by
    cases rest with
    | nil => exact ⟨rfl, rfl⟩
    | cons b rest => rcases hrest b rfl with rfl | rfl | rfl <;> exact ⟨rfl, rfl⟩
  have htake : (digits n ++ rest).takeWhile isDigit = digits n := by
    rw [List.takeWhile_append_of_pos hall, hnone.1, List.append_nil]
  have hdrop : (digits n ++ rest).dropWhile isDigit = rest := by
    rw [List.dropWhile_append_of_pos hall, hnone.2]
  rw [someDigits, htake, hdrop]
  cases h : digits n with
  | nil => exact absurd h (digits_ne_nil n)
  | cons b bs => rfl

/-- A numeral without fraction and exponent. -/
def wholeNumeral (negative : Bool) (n : Nat) : Numeral :=
  { negative, significand := n, exponent := 0, isInteger := true }

/-- **A written number is read back**, with what follows it. -/
theorem numeral_digits (negative : Bool) {n : Nat} (hn : n < Numeral.wordRange)
    {rest : List UInt8} (hrest : Ends rest) :
    numeral negative (digits n ++ rest) = .ok (wholeNumeral negative n, rest) := by
  have hzero : ¬ ((digits n).head? = some 0x30 ∧ (digits n).length ≠ 1) := by
    rintro ⟨hhead, hlen⟩
    by_cases hpos : 0 < n
    · exact head?_digits hpos hhead
    · obtain rfl : n = 0 := by omega
      exact hlen rfl
  have hends : fractionPart rest = .ok (none, rest) ∧ exponentPart rest = .ok (none, rest) := by
    cases rest with
    | nil => exact ⟨rfl, rfl⟩
    | cons b rest => rcases hrest b rfl with rfl | rfl | rfl <;> exact ⟨rfl, rfl⟩
  have hparts : Numeral.ofParts negative (digits n) none none = wholeNumeral negative n := by
    simp [Numeral.ofParts, gather_digits hn, Numeral.gather, wholeNumeral]
  simp [numeral, someDigits_digits n hrest, bind, Except.bind, if_neg hzero, hends.1,
    hends.2, hparts]

end Chiptune.Json
