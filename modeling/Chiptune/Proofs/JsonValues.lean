import Chiptune.Proofs.JsonText

/-!
# Texts of JSON values

The text of a value is read as the source of the value (`Json.source`), which holds its strings and
numbers as they were, if its numbers are within machine words (`Json.Fits`). The items of an array
and the members of an object are read one after the other, and a reader with three steps for each
byte that is left does not run out of them (`ReadsBack`).

* `Json.element_readsBack`, `Json.member_readsBack`: what one item or member is read as.
* `Json.readsBack`: the text of a value is read as its source, by recursion on the value.
* `Json.ofBytes_compact`: **a written value is read back**, and nothing follows it.
-/

set_option autoImplicit false

namespace Chiptune.Json

open CommandLine (textBytes)

/-! ## Sources of values -/

mutual

/-- Source of the text of a value. -/
def source : Json → Source
  | .null => .null
  | .bool b => .bool b
  | .number n => .number (wholeNumeral (decide (n < 0)) n.natAbs)
  | .string s => .string (.ok s)
  | .array items => .array (sources items) .closed
  | .object members => .object (memberSources members) .closed

/-- Sources of the items of an array. -/
def sources : List Json → List Source
  | [] => []
  | item :: rest => item.source :: sources rest

/-- Sources of the members of an object. -/
def memberSources : List (String × Json) → List (Except JsonProblem String × Source)
  | [] => []
  | (key, value) :: rest => (.ok key, value.source) :: memberSources rest

end

theorem memberSources_eq (members : List (String × Json)) :
    memberSources members = members.map fun m => (.ok m.1, m.2.source) := by
  induction members with
  | nil => rfl
  | cons m rest ih => rw [memberSources, ih, List.map_cons]

mutual

/-- Whether the numbers of a value are within machine words. -/
def Fits : Json → Prop
  | .number n => n.natAbs < Numeral.wordRange
  | .array items => FitsAll items
  | .object members => FitsMembers members
  | _ => True

/-- Whether the items of an array are within machine words. -/
def FitsAll : List Json → Prop
  | [] => True
  | item :: rest => item.Fits ∧ FitsAll rest

/-- Whether the members of an object are within machine words. -/
def FitsMembers : List (String × Json) → Prop
  | [] => True
  | (_, value) :: rest => value.Fits ∧ FitsMembers rest

end

/-! ## Bytes of values -/

theorem textBytes_append (s t : String) : textBytes (s ++ t) = textBytes s ++ textBytes t := by
  rw [textBytes_eq, String.toList_append, utf8_append, ← textBytes_eq, ← textBytes_eq]

/-- Texts behind the first one in a list, each after a comma. -/
def behind (texts : List String) : List UInt8 := texts.flatMap fun t => 0x2C :: textBytes t

theorem textBytes_intercalate (text : String) (texts : List String) :
    textBytes (",".intercalate (text :: texts)) = textBytes text ++ behind texts := by
  induction texts generalizing text with
  | nil =>
    have hone : ",".intercalate [text] = text := by
      rw [← String.toList_inj]
      simp
    simp [hone, behind]
  | cons t texts ih =>
    have hcomma : textBytes "," = [0x2C] := by rw [textBytes_eq]; rfl
    have hstep : ",".intercalate (text :: t :: texts) =
        text ++ "," ++ ",".intercalate (t :: texts) := by
      rw [← String.toList_inj]
      simp [String.toList_intercalate]
    rw [hstep, textBytes_append, textBytes_append, ih, hcomma]
    simp [behind]

theorem textBytes_number (n : Int) : textBytes (Json.number n).compact =
    if n < 0 then 0x2D :: digits n.natAbs else digits n.natAbs := by
  cases n with
  | ofNat n =>
    rw [if_neg (by simp), compact]
    exact textBytes_nat n
  | negSucc n =>
    have hminus : textBytes "-" = [0x2D] := by rw [textBytes_eq]; rfl
    have htext : (Json.number (.negSucc n)).compact = "-" ++ toString (n + 1) := rfl
    rw [if_pos (Int.negSucc_lt_zero n), htext, textBytes_append, hminus, textBytes_nat]
    rfl

theorem textBytes_array (items : List Json) : textBytes (Json.array items).compact =
    0x5B :: (textBytes (",".intercalate (compactItems items)) ++ [0x5D]) := by
  have hopen : textBytes "[" = [0x5B] := by rw [textBytes_eq]; rfl
  have hclose : textBytes "]" = [0x5D] := by rw [textBytes_eq]; rfl
  rw [compact, textBytes_append, textBytes_append, hopen, hclose]
  rfl

theorem textBytes_object (members : List (String × Json)) :
    textBytes (Json.object members).compact =
      0x7B :: (textBytes (",".intercalate (compactMembers members)) ++ [0x7D]) := by
  have hopen : textBytes "\x7b" = [0x7B] := by rw [textBytes_eq]; rfl
  have hclose : textBytes "\x7d" = [0x7D] := by rw [textBytes_eq]; rfl
  rw [compact, textBytes_append, textBytes_append, hopen, hclose]
  rfl

theorem textBytes_null : textBytes Json.null.compact = [0x6E, 0x75, 0x6C, 0x6C] := by
  rw [textBytes_eq]
  rfl

theorem textBytes_bool (b : Bool) : textBytes (Json.bool b).compact =
    if b then [0x74, 0x72, 0x75, 0x65] else [0x66, 0x61, 0x6C, 0x73, 0x65] := by
  rw [textBytes_eq]
  cases b <;> rfl

/-- Where the text of a value begins, no array or object ends and no blank stands. -/
def Opens (bytes : List UInt8) : Prop :=
  ∃ b rest, bytes = b :: rest ∧ isBlank b = false ∧ b ≠ 0x5D

theorem opens_digits (n : Nat) : Opens (digits n) := by
  cases h : digits n with
  | nil => exact absurd h (digits_ne_nil n)
  | cons b rest =>
    have hdigit : isDigit b = true :=
      isDigit_of_mem_digits (n := n) (h ▸ List.mem_cons_self)
    have hb : 48 ≤ b.toNat ∧ b.toNat ≤ 57 := by
      simpa [isDigit, UInt8.le_iff_toNat_le] using hdigit
    refine ⟨b, rest, rfl, ?_, ?_⟩
    · simp [isBlank, ← UInt8.toNat_inj]
      omega
    · rintro rfl
      simp at hb

theorem opens_compact (j : Json) : Opens (textBytes j.compact) := by
  cases j with
  | null => exact ⟨0x6E, _, textBytes_null, rfl, by decide⟩
  | bool b =>
    rw [textBytes_bool]
    cases b with
    | true => exact ⟨0x74, _, rfl, rfl, by decide⟩
    | false => exact ⟨0x66, _, rfl, rfl, by decide⟩
  | number n =>
    rw [textBytes_number]
    by_cases h : n < 0
    · rw [if_pos h]
      exact ⟨0x2D, _, rfl, rfl, by decide⟩
    · rw [if_neg h]
      exact opens_digits _
  | string s =>
    obtain ⟨inner, h, -⟩ := stringPart_quote s []
    rw [List.append_nil] at h
    exact ⟨0x22, inner, h, rfl, by decide⟩
  | array items =>
    rw [textBytes_array]
    exact ⟨0x5B, _, rfl, rfl, by decide⟩
  | object members =>
    rw [textBytes_object]
    exact ⟨0x7B, _, rfl, rfl, by decide⟩

theorem length_textBytes_pos (j : Json) : 0 < (textBytes j.compact).length := by
  obtain ⟨b, rest, h, -⟩ := opens_compact j
  rw [h]
  exact Nat.succ_pos _

/-! ## Steps of the reader -/

theorem value_digit {b : UInt8} (h : isDigit b = true) (steps : Nat) (rest : List UInt8) :
    value (steps + 1) (b :: rest) = leaf (numeral false (b :: rest)) .number := by
  have hall : ∀ n, 48 ≤ n → n ≤ 57 → value (steps + 1) (UInt8.ofNat n :: rest) =
      leaf (numeral false (UInt8.ofNat n :: rest)) .number := by
    intro n hlow hhigh
    interval_cases n <;> rfl
  have hb : 48 ≤ b.toNat ∧ b.toNat ≤ 57 := by
    simpa [isDigit, UInt8.le_iff_toNat_le] using h
  rw [← UInt8.ofNat_toNat (x := b)]
  exact hall b.toNat hb.1 hb.2

theorem elements_opens {bytes : List UInt8} (h : Opens bytes) (steps : Nat) (rest : List UInt8) :
    elements (steps + 1) true (bytes ++ rest) = element steps (bytes ++ rest) := by
  obtain ⟨b, tail, rfl, hblank, hclose⟩ := h
  simp [elements, skipBlanks, hblank]

theorem elements_comma {bytes : List UInt8} (h : Opens bytes) (steps : Nat) (rest : List UInt8) :
    elements (steps + 1) false (0x2C :: (bytes ++ rest)) = element steps (bytes ++ rest) := by
  obtain ⟨b, tail, rfl, hblank, hclose⟩ := h
  have hcomma : isBlank 0x2C = false := rfl
  simp [elements, skipBlanks, hblank, hclose, hcomma]

theorem value_array (steps : Nat) (inner : List UInt8) :
    value (steps + 1) (0x5B :: inner) =
      (.array (elements steps true inner).1 (elements steps true inner).2.1,
        (elements steps true inner).2.2) := rfl

theorem value_object {b : UInt8} (h : b = 0x22 ∨ b = 0x7D) (steps : Nat) (inner : List UInt8) :
    value (steps + 1) (0x7B :: b :: inner) =
      (.object (members steps true (b :: inner)).1 (members steps true (b :: inner)).2.1,
        (members steps true (b :: inner)).2.2) := by
  rcases h with rfl | rfl <;> rfl

/-! ## Leaves -/

/-- With three steps for each byte, a reader gets the source of a value from its text, and what
follows it. -/
def ReadsBack (j : Json) : Prop :=
  ∀ (steps : Nat) (rest : List UInt8), 3 * (textBytes j.compact).length ≤ steps →
    Ends rest → value steps (textBytes j.compact ++ rest) = (j.source, some rest)

theorem readsBack_null : ReadsBack .null := by
  intro steps rest hsteps _
  rw [textBytes_null] at hsteps ⊢
  obtain ⟨k, rfl⟩ : ∃ k, steps = k + 1 := ⟨steps - 1, by simp at hsteps; omega⟩
  rfl

theorem readsBack_bool (b : Bool) : ReadsBack (.bool b) := by
  intro steps rest hsteps _
  have hpos := length_textBytes_pos (.bool b)
  obtain ⟨k, rfl⟩ : ∃ k, steps = k + 1 := ⟨steps - 1, by omega⟩
  rw [textBytes_bool]
  cases b <;> rfl

theorem readsBack_number {n : Int} (h : (Json.number n).Fits) : ReadsBack (.number n) := by
  intro steps rest hsteps hrest
  have hpos := length_textBytes_pos (.number n)
  have hnumeral := fun negative => numeral_digits negative h hrest
  obtain ⟨k, rfl⟩ : ∃ k, steps = k + 1 := ⟨steps - 1, by omega⟩
  rw [textBytes_number, source]
  by_cases hn : n < 0
  · rw [if_pos hn, decide_eq_true hn]
    show leaf (numeral true (digits n.natAbs ++ rest)) Source.number = _
    rw [hnumeral]
    rfl
  · rw [if_neg hn, decide_eq_false hn]
    cases hdigits : digits n.natAbs with
    | nil => exact absurd hdigits (digits_ne_nil _)
    | cons b tail =>
      have hb : isDigit b = true :=
        isDigit_of_mem_digits (n := n.natAbs) (hdigits ▸ List.mem_cons_self)
      rw [List.cons_append, value_digit hb, ← List.cons_append, ← hdigits, hnumeral]
      rfl

theorem readsBack_string (s : String) : ReadsBack (.string s) := by
  intro steps rest hsteps _
  have hpos := length_textBytes_pos (.string s)
  obtain ⟨k, rfl⟩ : ∃ k, steps = k + 1 := ⟨steps - 1, by omega⟩
  obtain ⟨inner, hinner, hpart⟩ := stringPart_quote s rest
  rw [compact, hinner]
  show leaf (stringPart inner) Source.string = _
  rw [hpart]
  rfl

/-! ## Items -/

/-- An item takes one step more than its value, and leaves the others one step less. -/
theorem element_readsBack {j : Json} (hj : ReadsBack j) {steps : Nat} {rest : List UInt8}
    (hsteps : 3 * (textBytes j.compact).length + 1 ≤ steps) (hrest : Ends rest)
    {items : List Source} {stop : Stop} {after : Option (List UInt8)}
    (hitems : elements (steps - 1) false rest = (items, stop, after)) :
    element steps (textBytes j.compact ++ rest) = (j.source :: items, stop, after) := by
  obtain ⟨k, rfl⟩ : ∃ k, steps = k + 1 := ⟨steps - 1, by omega⟩
  rw [element, hj k rest (by omega) hrest]
  simp only [Nat.add_sub_cancel] at hitems
  simp only [hitems]

theorem ends_behind (texts : List String) {b : UInt8} (h : b = 0x5D ∨ b = 0x7D)
    (rest : List UInt8) :
    Ends (behind texts ++ b :: rest) := by
  cases texts with
  | nil => exact ends_cons (Or.inr h)
  | cons t texts => exact ends_cons (Or.inl rfl)

/-- The items behind the first one, up to the end of the array. -/
theorem elements_readsBack {items : List Json} (hitems : ∀ j ∈ items, ReadsBack j)
    (rest : List UInt8) (steps : Nat)
    (hsteps : 3 * ((behind (compactItems items)).length + 1) ≤ steps) :
    elements steps false (behind (compactItems items) ++ 0x5D :: rest) =
      (sources items, .closed, some rest) := by
  induction items generalizing steps with
  | nil =>
    obtain ⟨k, rfl⟩ : ∃ k, steps = k + 1 := ⟨steps - 1, by omega⟩
    rfl
  | cons j items ih =>
    have hbehind : behind (compactItems (j :: items)) =
        0x2C :: (textBytes j.compact ++ behind (compactItems items)) := rfl
    rw [hbehind] at hsteps ⊢
    simp only [List.length_cons, List.length_append] at hsteps
    obtain ⟨k, rfl⟩ : ∃ k, steps = k + 1 := ⟨steps - 1, by omega⟩
    have hrest := ih (fun i hi => hitems i (List.mem_cons_of_mem _ hi)) (k - 1) (by omega)
    rw [List.cons_append, List.append_assoc, elements_comma (opens_compact j),
      element_readsBack (hitems j List.mem_cons_self) (by omega) (ends_behind _ (Or.inl rfl) rest)
        hrest, sources]

theorem readsBack_array {items : List Json} (hitems : ∀ j ∈ items, ReadsBack j) :
    ReadsBack (.array items) := by
  intro steps rest hsteps _
  rw [textBytes_array] at hsteps ⊢
  simp only [List.length_cons, List.length_append, List.length_nil] at hsteps
  obtain ⟨k, rfl⟩ : ∃ k, steps = k + 2 := ⟨steps - 2, by omega⟩
  rw [List.cons_append, List.append_assoc, value_array, source]
  cases items with
  | nil =>
    have hnone : textBytes (",".intercalate (compactItems [])) = [] := by
      rw [textBytes_eq]
      rfl
    rw [hnone]
    rfl
  | cons j items =>
    rw [compactItems, textBytes_intercalate] at hsteps ⊢
    simp only [List.length_append] at hsteps
    have hrest := elements_readsBack (fun i hi => hitems i (List.mem_cons_of_mem _ hi)) rest
      (k - 1) (by omega)
    rw [List.append_assoc, List.singleton_append, elements_opens (opens_compact j),
      element_readsBack (hitems j List.mem_cons_self) (by omega) (ends_behind _ (Or.inl rfl) rest)
        hrest, sources]

/-! ## Members -/

theorem textBytes_member (key : String) (j : Json) :
    textBytes (quote key ++ ":" ++ j.compact) =
      textBytes (quote key) ++ 0x3A :: textBytes j.compact := by
  have hcolon : textBytes ":" = [0x3A] := by rw [textBytes_eq]; rfl
  rw [textBytes_append, textBytes_append, hcolon, List.append_assoc]
  rfl

theorem members_opens (key : String) (steps : Nat) (rest : List UInt8) :
    members (steps + 1) true (textBytes (quote key) ++ rest) =
      member steps (textBytes (quote key) ++ rest) := by
  obtain ⟨inner, hinner, -⟩ := stringPart_quote key rest
  rw [hinner]
  rfl

theorem members_comma (key : String) (steps : Nat) (rest : List UInt8) :
    members (steps + 1) false (0x2C :: (textBytes (quote key) ++ rest)) =
      member steps (textBytes (quote key) ++ rest) := by
  obtain ⟨inner, hinner, -⟩ := stringPart_quote key rest
  rw [hinner]
  rfl

theorem member_readsBack (key : String) {j : Json} (hj : ReadsBack j) {steps : Nat}
    {rest : List UInt8} (hsteps : 3 * (textBytes j.compact).length + 1 ≤ steps)
    (hrest : Ends rest) {entries : List (Except JsonProblem String × Source)} {stop : Stop}
    {after : Option (List UInt8)}
    (hentries : members (steps - 1) false rest = (entries, stop, after)) :
    member steps (textBytes (quote key) ++ 0x3A :: (textBytes j.compact ++ rest)) =
      ((.ok key, j.source) :: entries, stop, after) := by
  obtain ⟨k, rfl⟩ : ∃ k, steps = k + 1 := ⟨steps - 1, by omega⟩
  simp only [Nat.add_sub_cancel] at hentries
  obtain ⟨inner, hinner, hpart⟩ :=
    stringPart_quote key (0x3A :: (textBytes j.compact ++ rest))
  have hcolon : skipBlanks (0x3A :: (textBytes j.compact ++ rest)) =
      0x3A :: (textBytes j.compact ++ rest) := rfl
  rw [hinner, member, List.drop_succ_cons, List.drop_zero, hpart]
  simp only [hcolon, hj k rest (by omega) hrest, hentries]

/-- The members behind the first one, up to the end of the object. -/
theorem members_readsBack {entries : List (String × Json)}
    (hentries : ∀ m ∈ entries, ReadsBack m.2) (rest : List UInt8) (steps : Nat)
    (hsteps : 3 * ((behind (compactMembers entries)).length + 1) ≤ steps) :
    members steps false (behind (compactMembers entries) ++ 0x7D :: rest) =
      (memberSources entries, .closed, some rest) := by
  induction entries generalizing steps with
  | nil =>
    obtain ⟨k, rfl⟩ : ∃ k, steps = k + 1 := ⟨steps - 1, by omega⟩
    rfl
  | cons m entries ih =>
    obtain ⟨key, j⟩ := m
    have hbehind : behind (compactMembers ((key, j) :: entries)) =
        0x2C :: (textBytes (quote key ++ ":" ++ j.compact) ++
          behind (compactMembers entries)) := rfl
    have hj : ReadsBack j := hentries (key, j) List.mem_cons_self
    rw [hbehind, textBytes_member] at hsteps ⊢
    simp only [List.length_cons, List.length_append] at hsteps
    obtain ⟨k, rfl⟩ : ∃ k, steps = k + 1 := ⟨steps - 1, by omega⟩
    have hrest := ih (fun m hm => hentries m (List.mem_cons_of_mem _ hm)) (k - 1) (by omega)
    rw [List.cons_append, List.append_assoc, List.append_assoc, List.cons_append, members_comma,
      member_readsBack key hj (by omega)
        (ends_behind _ (Or.inr rfl) rest) hrest, memberSources]

theorem readsBack_object {entries : List (String × Json)}
    (hentries : ∀ m ∈ entries, ReadsBack m.2) : ReadsBack (.object entries) := by
  intro steps rest hsteps _
  rw [textBytes_object] at hsteps ⊢
  simp only [List.length_cons, List.length_append, List.length_nil] at hsteps
  obtain ⟨k, rfl⟩ : ∃ k, steps = k + 2 := ⟨steps - 2, by omega⟩
  rw [List.cons_append, List.append_assoc, source]
  cases entries with
  | nil =>
    have hnone : textBytes (",".intercalate (compactMembers [])) = [] := by
      rw [textBytes_eq]
      rfl
    rw [hnone]
    rfl
  | cons m entries =>
    obtain ⟨key, j⟩ := m
    have hj : ReadsBack j := hentries (key, j) List.mem_cons_self
    rw [compactMembers, textBytes_intercalate, textBytes_member] at hsteps ⊢
    simp only [List.length_append, List.length_cons] at hsteps
    have hrest := members_readsBack (fun m hm => hentries m (List.mem_cons_of_mem _ hm)) rest
      (k - 1) (by omega)
    have hmembers := members_opens key k
      (0x3A :: (textBytes j.compact ++ (behind (compactMembers entries) ++ 0x7D :: rest)))
    rw [member_readsBack key hj (by omega)
      (ends_behind _ (Or.inr rfl) rest) hrest] at hmembers
    obtain ⟨inner, hinner, -⟩ := stringPart_quote key
      (0x3A :: (textBytes j.compact ++ (behind (compactMembers entries) ++ 0x7D :: rest)))
    rw [List.append_assoc, List.append_assoc, List.cons_append, List.singleton_append, hinner,
      value_object (Or.inl rfl), ← hinner, hmembers, memberSources]

/-! ## Values -/

mutual

/-- The text of a value is read as its source. -/
theorem readsBack : (j : Json) → j.Fits → ReadsBack j
  | .null, _ => readsBack_null
  | .bool b, _ => readsBack_bool b
  | .number _, h => readsBack_number h
  | .string s, _ => readsBack_string s
  | .array items, h => readsBack_array (readsBack_items items h)
  | .object entries, h => readsBack_object (readsBack_members entries h)

theorem readsBack_items : (items : List Json) → FitsAll items → ∀ j ∈ items, ReadsBack j
  | [], _ => List.forall_mem_nil _
  | item :: rest, h => List.forall_mem_cons.2 ⟨readsBack item h.1, readsBack_items rest h.2⟩

theorem readsBack_members : (entries : List (String × Json)) → FitsMembers entries →
    ∀ m ∈ entries, ReadsBack m.2
  | [], _ => List.forall_mem_nil _
  | (_, value) :: rest, h =>
    List.forall_mem_cons.2 ⟨readsBack value h.1, readsBack_members rest h.2⟩

end

/-- **A written value is read back**, and nothing follows it. -/
theorem ofBytes_compact {j : Json} (h : j.Fits) :
    Document.ofBytes (textBytes j.compact) = ⟨j.source, false⟩ := by
  have hvalue := readsBack j h (3 * (textBytes j.compact).length + 3) [] (by omega) ends_nil
  rw [List.append_nil] at hvalue
  rw [Document.ofBytes, hvalue]
  rfl

end Chiptune.Json
