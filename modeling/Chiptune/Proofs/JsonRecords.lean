import Chiptune.Project.Writer
import Chiptune.Proofs.JsonValues

/-!
# Typed readers and what is written

A reader makes a value of a type from the text of a JSON value (`Json.ReadsAs`). Leaves, lists,
options and variants are read as they are written. A record is read from members in the order of
its fields, where fields that are not required may be left out (`Json.Given`).

* `Json.readsAs_int`: an integer within the bounds of its reader is read back.
* `Json.readsAs_list`, `Json.readsAs_option`, `Json.readsAs_payload`: from the parts to the whole.
* `Json.foldlM_given`: what a record goes through on its members.
* `Json.readsAs_record`: **a record is read from its members.**
-/

set_option autoImplicit false

namespace Chiptune.Json

open Reader

section
variable {α β : Type}

/-- A reader makes a value of the text of a JSON value, whose numbers are within machine words. -/
structure ReadsAs (read : Reader α) (j : Json) (a : α) : Prop where
  fits : j.Fits
  reads : read j.source = .ok a

theorem ReadsAs.map {read : Reader α} {j : Json} {a : α} (h : ReadsAs read j a) (f : α → β) :
    ReadsAs (fun source => f <$> read source) j (f a) :=
  ⟨h.fits, by rw [h.reads]; rfl⟩

theorem readsAs_bind {read : Reader α} {f : α → Except JsonProblem β} {j : Json} {a : α} {b : β}
    (h : ReadsAs read j a) (hf : f a = .ok b) : ReadsAs (fun source => read source >>= f) j b :=
  ⟨h.fits, by rw [h.reads]; exact hf⟩

/-! ## Leaves -/

/-- Rounding to a double at most doubles a number above zero. -/
theorem nearestDouble_le (n : Nat) : Numeral.nearestDouble n ≤ 2 * n + 1 := by
  unfold Numeral.nearestDouble
  have hquotient : n >>> (n.log2 + 1 - 53) <<< (n.log2 + 1 - 53) ≤ n := by
    rw [Nat.shiftLeft_eq, Nat.shiftRight_eq_div_pow]
    exact Nat.div_mul_le_self _ _
  have hunit : 2 ^ (n.log2 + 1 - 53) ≤ n + 1 := by
    by_cases hn : n = 0
    · subst hn; decide
    · calc 2 ^ (n.log2 + 1 - 53) ≤ 2 ^ n.log2 := Nat.pow_le_pow_right (by decide) (by omega)
        _ ≤ n := Nat.log2_self_le hn
        _ ≤ n + 1 := Nat.le_succ n
  dsimp only
  split_ifs
  · omega
  · rw [Nat.shiftLeft_eq] at hquotient ⊢
    rw [Nat.add_mul]
    omega

/-- No machine word is too large for a double. -/
theorem overflows_wholeNumeral {negative : Bool} {n : Nat} (h : n < Numeral.wordRange) :
    (wholeNumeral negative n).overflows = false := by
  unfold Numeral.overflows wholeNumeral
  have hone : Numeral.nearestDouble (Nat.pow 10 (0 : Int).toNat) = 1 := by decide
  have hbound : 2 * Numeral.wordRange + 1 < Numeral.overflowBound := by decide
  have hn := nearestDouble_le n
  simp only [hone, Nat.mul_one]
  split_ifs
  · rfl
  · simp [Numeral.maxPower] at *
  · simp only [decide_eq_false_iff_not]
    omega

theorem readsAs_int {low high n : Int} (hlow : low ≤ n) (hhigh : n ≤ high)
    (hmin : -(Numeral.wordRange : Int) ≤ 2 * low) (hmax : high < Numeral.wordRange) :
    ReadsAs (int low high) (.number n) n := by
  have hfits : n.natAbs < Numeral.wordRange := by
    have : (0 : Int) < Numeral.wordRange := by decide
    omega
  have hint : (wholeNumeral (decide (n < 0)) n.natAbs).toInt? = some n := by
    unfold Numeral.toInt? wholeNumeral
    by_cases hn : n < 0
    · have hpos : 0 < n.natAbs ∧ 2 * n.natAbs ≤ Numeral.wordRange := by omega
      have habs : -(n.natAbs : Int) = n := by omega
      simp only [hn, decide_true, Bool.not_true, Bool.false_eq_true, if_false, if_true, if_pos hpos,
        habs]
    · have habs : (n.natAbs : Int) = n := by omega
      simp only [hn, decide_false, Bool.not_true, Bool.false_eq_true, if_false, habs]
  refine ⟨hfits, ?_⟩
  rw [source, int, overflows_wholeNumeral hfits, hint]
  simp [hlow, hhigh]

theorem readsAs_nat {n : Nat} (h : n < Numeral.wordRange) : ReadsAs Reader.nat (Json.nat n) n :=
  (readsAs_int (Int.natCast_nonneg n) (by omega) (by decide) (by omega)).map Int.toNat

theorem readsAs_uint8 (b : UInt8) : ReadsAs Reader.uint8 (Write.uint8 b) b := by
  have hlt := b.toNat_lt
  have h : ReadsAs Reader.uint8 (Write.uint8 b) (UInt8.ofNat (b.toNat : Int).toNat) :=
    (readsAs_int (by omega) (by omega) (by decide) (by decide)).map (UInt8.ofNat ·.toNat)
  rwa [Int.toNat_natCast, UInt8.ofNat_toNat] at h

theorem readsAs_uint16 (w : UInt16) : ReadsAs Reader.uint16 (Write.uint16 w) w := by
  have hlt := w.toNat_lt
  have h : ReadsAs Reader.uint16 (Write.uint16 w) (UInt16.ofNat (w.toNat : Int).toNat) :=
    (readsAs_int (by omega) (by omega) (by decide) (by decide)).map (UInt16.ofNat ·.toNat)
  rwa [Int.toNat_natCast, UInt16.ofNat_toNat] at h

theorem readsAs_int8 (i : Int8) : ReadsAs Reader.int8 (Write.int8 i) i := by
  have hlow := i.le_toInt
  have hhigh := i.toInt_lt
  have h : ReadsAs Reader.int8 (Write.int8 i) (Int8.ofInt i.toInt) :=
    (readsAs_int (by omega) (by omega) (by decide) (by decide)).map Int8.ofInt
  rwa [Int8.ofInt_toInt] at h

theorem readsAs_bool (b : Bool) : ReadsAs Reader.bool (.bool b) b := ⟨trivial, rfl⟩

theorem readsAs_string (s : String) : ReadsAs Reader.string (.string s) s := ⟨trivial, rfl⟩

/-! ## Lists and options -/

theorem fitsAll_map {write : α → Json} {as : List α} (h : ∀ a ∈ as, (write a).Fits) :
    FitsAll (as.map write) := by
  induction as with
  | nil => trivial
  | cons a as ih => exact ⟨h a List.mem_cons_self, ih fun b hb => h b (List.mem_cons_of_mem _ hb)⟩

theorem mapM_sources {read : Reader α} {write : α → Json} {as : List α}
    (h : ∀ a ∈ as, read (write a).source = .ok a) :
    (sources (as.map write)).mapM read = .ok as := by
  induction as with
  | nil => rfl
  | cons a as ih =>
    rw [List.map_cons, sources, List.mapM_cons, h a List.mem_cons_self,
      ih fun b hb => h b (List.mem_cons_of_mem _ hb)]
    rfl

theorem readsAs_list {read : Reader α} {write : α → Json} {as : List α}
    (h : ∀ a ∈ as, ReadsAs read (write a) a) : ReadsAs (list read) (ofList write as) as := by
  refine ⟨fitsAll_map fun a ha => (h a ha).fits, ?_⟩
  rw [ofList, source, list, mapM_sources fun a ha => (h a ha).reads]
  rfl

theorem readsAs_vector {read : Reader α} {write : α → Json} {n : Nat} (as : Vector α n)
    (h : ∀ a ∈ as.toList, ReadsAs read (write a) a) :
    ReadsAs (vector n read) (ofList write as.toList) as := by
  have hlist := readsAs_list h
  refine ⟨hlist.fits, ?_⟩
  have hlength : as.toList.length = n := by simp
  have hvector : (⟨as.toList.toArray, by simp⟩ : Vector α n) = as := by
    rw [← Vector.toArray_inj]
    exact Array.toArray_toList
  simp only [vector, hlist.reads, bind, Except.bind, dif_pos hlength, hvector]

theorem ReadsAs.some {read : Reader α} {j : Json} {a : α} (h : ReadsAs read j a)
    (hnull : j ≠ .null) : ReadsAs (option read) j (some a) := by
  refine ⟨h.fits, ?_⟩
  have hreads := h.reads
  cases j with
  | null => exact absurd rfl hnull
  | bool | number | string | array | object => exact congrArg (Option.some <$> ·) hreads

theorem readsAs_none (read : Reader α) : ReadsAs (option read) .null none := ⟨trivial, rfl⟩

theorem readsAs_option {read : Reader α} {write : α → Json} {o : Option α}
    (h : ∀ a ∈ o, ReadsAs read (write a) a) (hnull : ∀ a, write a ≠ .null) :
    ReadsAs (option read) (ofOption write o) o := by
  cases o with
  | none => exact readsAs_none read
  | some a => exact (h a rfl).some (hnull a)

/-! ## Variants -/

theorem readsAs_variant {plain : String → Except JsonProblem α}
    {payload : String → Except JsonProblem (Reader α)} {name : String} {a : α}
    (h : plain name = .ok a) : ReadsAs (variant plain payload) (.string name) a :=
  ⟨trivial, h⟩

theorem readsAs_payload {plain : String → Except JsonProblem α}
    {payload : String → Except JsonProblem (Reader α)} {name : String} {read : Reader α}
    {j : Json} {a : α} (hname : payload name = .ok read) (h : ReadsAs read j a) :
    ReadsAs (variant plain payload) (.object [(name, j)]) a := by
  refine ⟨⟨h.fits, trivial⟩, ?_⟩
  simp only [source, memberSources, variant, hname, h.reads, bind, Except.bind]
  rfl

theorem readsAs_enum {all : List α} {key : α → String} {a : α}
    (h : lookup all key (key a) = .ok a) : ReadsAs (enum all key) (.string (key a)) a :=
  readsAs_variant h

/-! ## Records -/

/-- How members stand for the fields of a record, in the order of the fields: a field that is not
required may be left out. The record starts as the one and ends as the other. -/
inductive Given : List (Reader.Field α) → α → List (String × Json) → α → Prop
  | nil (a : α) : Given [] a [] a
  | given {field : Reader.Field α} {fields : List (Reader.Field α)} {a b c : α} {j : Json}
      {members : List (String × Json)} (h : ReadsAs (field.read a) j b)
      (hrest : Given fields b members c) : Given (field :: fields) a ((field.name, j) :: members) c
  | omitted {field : Reader.Field α} {fields : List (Reader.Field α)} {a c : α}
      {members : List (String × Json)} (h : field.isRequired = false)
      (hrest : Given fields a members c) : Given (field :: fields) a members c

/-- The field of a name is the only one with this name. -/
theorem find?_name {fields : List (Reader.Field α)} (hnames : (fields.map (·.name)).Nodup)
    {f : Reader.Field α} (hf : f ∈ fields) : fields.find? (·.name == f.name) = some f := by
  induction fields with
  | nil => exact absurd hf List.not_mem_nil
  | cons g fields ih =>
    rw [List.map_cons, List.nodup_cons] at hnames
    rcases List.mem_cons.1 hf with rfl | hf
    · rw [List.find?_cons_of_pos (by simp)]
    · have hne : g.name ≠ f.name := fun h => hnames.1 (h ▸ List.mem_map_of_mem hf)
      rw [List.find?_cons_of_neg (by simpa using hne), ih hnames.2 hf]

theorem readMember_given {all : List (Reader.Field α)} {f : Reader.Field α}
    (hfind : all.find? (·.name == f.name) = some f) {a b : α} {seen : List String}
    (hseen : f.name ∉ seen) {s : Source} (h : f.read a s = .ok b) :
    readMember all (a, seen) (.ok f.name, s) = .ok (b, f.name :: seen) := by
  simp [readMember, bind, Except.bind, hfind, hseen, h]

/-- Members that stand for fields, none of which was given before, make the record that they stand
for, and the required fields are among the given ones. -/
theorem foldlM_given {all fields : List (Reader.Field α)} {a c : α} {members : List (String × Json)}
    (h : Given fields a members c) (hnames : (fields.map (·.name)).Nodup)
    (hfind : ∀ f ∈ fields, all.find? (·.name == f.name) = some f) (seen : List String)
    (hseen : ∀ f ∈ fields, f.name ∉ seen) :
    ∃ seen', (memberSources members).foldlM (readMember all) (a, seen) = .ok (c, seen') ∧
      (∀ name ∈ seen, name ∈ seen') ∧ ∀ f ∈ fields, f.isRequired = true → f.name ∈ seen' := by
  induction h generalizing seen with
  | nil a => exact ⟨seen, rfl, fun _ h => h, fun _ h => absurd h List.not_mem_nil⟩
  | @given field fields a b c j members h _ ih =>
    rw [List.map_cons, List.nodup_cons] at hnames
    obtain ⟨seen', hfold, hold, hnew⟩ := ih hnames.2
      (fun f hf => hfind f (List.mem_cons_of_mem _ hf)) (field.name :: seen) (by
        intro f hf hmem
        rcases List.mem_cons.1 hmem with hname | hmem
        · exact hnames.1 (hname ▸ List.mem_map_of_mem hf)
        · exact hseen f (List.mem_cons_of_mem _ hf) hmem)
    refine ⟨seen', ?_, fun name h => hold name (List.mem_cons_of_mem _ h), ?_⟩
    · rw [memberSources, List.foldlM_cons, readMember_given (hfind field List.mem_cons_self)
        (hseen field List.mem_cons_self) h.reads]
      exact hfold
    · intro f hf hrequired
      rcases List.mem_cons.1 hf with rfl | hf
      · exact hold _ List.mem_cons_self
      · exact hnew f hf hrequired
  | @omitted field fields a c members h _ ih =>
    rw [List.map_cons, List.nodup_cons] at hnames
    obtain ⟨seen', hfold, hold, hnew⟩ := ih hnames.2
      (fun f hf => hfind f (List.mem_cons_of_mem _ hf)) seen
      (fun f hf => hseen f (List.mem_cons_of_mem _ hf))
    refine ⟨seen', hfold, hold, fun f hf hrequired => ?_⟩
    rcases List.mem_cons.1 hf with rfl | hf
    · rw [h] at hrequired
      exact absurd hrequired (by decide)
    · exact hnew f hf hrequired

theorem Given.fits {fields : List (Reader.Field α)} {a c : α} {members : List (String × Json)}
    (h : Given fields a members c) : FitsMembers members := by
  induction h with
  | nil => trivial
  | given h _ ih => exact ⟨h.fits, ih⟩
  | omitted _ _ ih => exact ih

/-- **A record is read from its members.** -/
theorem readsAs_record {start a : α} {fields : List (Reader.Field α)}
    {members : List (String × Json)} (hnames : (fields.map (·.name)).Nodup)
    (h : Given fields start members a) : ReadsAs (record start fields) (.object members) a := by
  refine ⟨h.fits, ?_⟩
  obtain ⟨seen, hfold, -, hseen⟩ := foldlM_given h hnames (fun f hf => find?_name hnames hf) []
    (by simp)
  have hall : (fields.all fun f => !f.isRequired || decide (f.name ∈ seen)) = true := by
    rw [List.all_eq_true]
    intro f hf
    cases hrequired : f.isRequired with
    | false => rfl
    | true => simpa using hseen f hf hrequired
  simp only [source, record, hfold, bind, Except.bind, Source.stopAt, hall, if_true]

variable {fields : List (Reader.Field α)} {members : List (String × Json)} {a c : α} {name : String}
  {read : Reader β} {set : α → β → α}

theorem Given.required {j : Json} {b : β} (h : ReadsAs read j b)
    (hrest : Given fields (set a b) members c) :
    Given (Reader.required name read set :: fields) a ((name, j) :: members) c :=
  .given (h.map (set a)) hrest

theorem Given.optional {j : Json} {b : β} (h : ReadsAs read j b)
    (hrest : Given fields (set a b) members c) :
    Given (Reader.optional name read set :: fields) a ((name, j) :: members) c :=
  .given (h.map (set a)) hrest

/-- An attribute that is left out when it is not set: the record has none to begin with. -/
theorem Given.ifSome {write : β → Json} {set : α → Option β → α} {o : Option β}
    (hnone : set a none = a) (h : ∀ b ∈ o, ReadsAs read (write b) b) (hnull : ∀ b, write b ≠ .null)
    (hrest : Given fields (set a o) members c) :
    Given (Reader.optional name (option read) set :: fields) a
      (Write.ifSome name write o ++ members) c := by
  cases o with
  | none =>
    rw [hnone] at hrest
    exact .omitted rfl hrest
  | some b => exact .optional ((h b rfl).some (hnull b)) hrest

end

end Chiptune.Json
