import Chiptune.Proofs.JsonRecords
import Chiptune.Proofs.Results
import Mathlib.Data.List.Pairwise

/-!
# What a reader of records makes of any object

An object may give the members of a record in any order, leave some out and have others besides.
What the fields keep, a record keeps (`readMembers_keep`), so that properties of what readers
produce go from the parts to the whole (`Json.Produces`). A member that is left out counts as
written with its default (`Json.DefaultsTo`), since the default is what the record starts with
(`Json.Defaults`) and no other field changes it (`Json.Independent`).

* `Json.readMember_cases`: what one member does to a record.
* `Json.readMembers_keep`: **what a record keeps** over any members.
* `Json.produces_record`: what holds of a record at the start and is kept by its fields holds of all
  records that are read.
* `Json.record_defaultsTo`: **members that are left out stand for their defaults.**
-/

set_option autoImplicit false

namespace Chiptune.Json

open Reader

section
variable {α β : Type}

/-- Member of an object, as a reader meets it. -/
abbrev Entry := Except JsonProblem String × Source

/-! ## What a record goes through -/

/-- A member either changes the record by the field of its name, which was not given before, or
leaves it. -/
theorem readMember_cases {fields : List (Reader.Field α)} {a b : α} {seen seen' : List String}
    {entry : Entry} (h : readMember fields (a, seen) entry = .ok (b, seen')) :
    ∃ key, entry.1 = .ok key ∧
      ((∃ f ∈ fields, f.name = key ∧ f.read a entry.2 = .ok b ∧ seen' = key :: seen) ∨
        (b = a ∧ seen' = seen)) := by
  obtain ⟨key, hkey, h⟩ := bind_ok h
  refine ⟨key, hkey, ?_⟩
  split at h
  · rename_i f hfind
    have hname : f.name = key := by simpa using List.find?_some hfind
    split_ifs at h
    obtain ⟨c, hread, h⟩ := bind_ok h
    cases h
    exact Or.inl ⟨f, List.mem_of_find?_eq_some hfind, hname, hread, rfl⟩
  · obtain ⟨-, -, h⟩ := bind_ok h
    cases h
    exact Or.inr ⟨rfl, rfl⟩

/-- A field changes records within a property only. -/
def Keeps (P : α → Prop) (f : Reader.Field α) : Prop :=
  ∀ a s b, P a → f.read a s = .ok b → P b

/-- Members keep what the fields of their names keep, and no other field is given. -/
theorem readMembers_keep {P : α → Prop} {fields : List (Reader.Field α)} {entries : List Entry}
    (hkeeps : ∀ f ∈ fields, (∃ entry ∈ entries, entry.1 = .ok f.name) → Keeps P f) {a b : α}
    {seen seen' : List String}
    (h : entries.foldlM (readMember fields) (a, seen) = .ok (b, seen')) (ha : P a) :
    P b ∧ ∀ name ∈ seen', name ∈ seen ∨ ∃ entry ∈ entries, entry.1 = .ok name := by
  induction entries generalizing a seen with
  | nil =>
    cases h
    exact ⟨ha, fun _ h => Or.inl h⟩
  | cons entry entries ih =>
    rw [List.foldlM_cons] at h
    obtain ⟨⟨c, mid⟩, hmember, h⟩ := bind_ok h
    obtain ⟨key, hkey, hcase⟩ := readMember_cases hmember
    have hc : P c ∧ ∀ name ∈ mid, name ∈ seen ∨ name = key := by
      rcases hcase with ⟨f, hf, rfl, hread, rfl⟩ | ⟨rfl, rfl⟩
      · refine ⟨hkeeps f hf ⟨entry, List.mem_cons_self, hkey⟩ a _ c ha hread, ?_⟩
        intro name hname
        exact (List.mem_cons.1 hname).symm
      · exact ⟨ha, fun _ h => Or.inl h⟩
    obtain ⟨hb, hnames⟩ := ih (fun f hf ⟨e, he, hname⟩ =>
      hkeeps f hf ⟨e, List.mem_cons_of_mem _ he, hname⟩) h hc.1
    refine ⟨hb, fun name hname => ?_⟩
    rcases hnames name hname with hmid | ⟨e, he, hname⟩
    · rcases hc.2 name hmid with hseen | rfl
      · exact Or.inl hseen
      · exact Or.inr ⟨entry, List.mem_cons_self, hkey⟩
    · exact Or.inr ⟨e, List.mem_cons_of_mem _ he, hname⟩

theorem readItems_keep {P : α → Prop} {stop : Stop} {fields : List (Reader.Field α)}
    (hkeeps : ∀ f ∈ fields, Keeps P f) {items : List Source} {a b : α}
    (h : readItems stop a fields items = .ok b) (ha : P a) : P b := by
  induction fields generalizing a items with
  | nil =>
    cases items with
    | nil =>
      obtain ⟨-, -, h⟩ := bind_ok h
      cases h
      exact ha
    | cons item items => cases h
  | cons f fields ih =>
    have hfields : ∀ g ∈ fields, Keeps P g := fun g hg => hkeeps g (List.mem_cons_of_mem _ hg)
    cases items with
    | nil =>
      obtain ⟨-, -, h⟩ := bind_ok h
      split_ifs at h
      · cases h
      · exact ih hfields h ha
    | cons item items =>
      obtain ⟨c, hread, h⟩ := bind_ok h
      exact ih hfields h (hkeeps f List.mem_cons_self a item c ha hread)

/-! ## What readers produce -/

/-- Every value that a reader gives has a property. -/
def Produces (read : Reader α) (P : α → Prop) : Prop := ∀ s a, read s = .ok a → P a

theorem map_ok {ε : Type} {x : Except ε α} {f : α → β} {b : β} (h : f <$> x = .ok b) :
    ∃ a, x = .ok a ∧ f a = b := by
  cases x with
  | error e => cases h
  | ok a => exact ⟨a, rfl, Except.ok.inj h⟩

theorem Produces.map {read : Reader α} {P : α → Prop} {Q : β → Prop} {f : α → β}
    (h : Produces read P) (hf : ∀ a, P a → Q (f a)) : Produces (fun s => f <$> read s) Q := by
  intro s b hb
  obtain ⟨a, ha, rfl⟩ := map_ok hb
  exact hf a (h s a ha)

theorem produces_int (low high : Int) : Produces (int low high) fun n => low ≤ n ∧ n ≤ high := by
  intro s n h
  unfold int at h
  split at h
  · split_ifs at h
    split at h
    · split_ifs at h with hbounds
      cases h
      exact hbounds
    · cases h
  · cases h

theorem produces_nat : Produces Reader.nat (· < Numeral.wordRange) :=
  (produces_int _ _).map fun n h => by omega

theorem produces_list {read : Reader α} {P : α → Prop} (h : Produces read P) :
    Produces (list read) fun as => ∀ a ∈ as, P a := by
  intro s as has
  cases s with
  | array items stop =>
    obtain ⟨bs, hmap, has⟩ := bind_ok has
    obtain ⟨-, -, has⟩ := bind_ok has
    cases has
    intro a ha
    obtain ⟨item, -, hitem⟩ := exists_of_mapM_ok hmap ha
    exact h item a hitem
  | _ => cases has

theorem produces_option {read : Reader α} {P : α → Prop} (h : Produces read P) :
    Produces (option read) fun o => ∀ a ∈ o, P a := by
  intro s o ho a ha
  have hsome : ∀ s, Option.some <$> read s = .ok o → P a := by
    intro s ho
    obtain ⟨b, hb, rfl⟩ := map_ok ho
    cases ha
    exact h s _ hb
  unfold option at ho
  split at ho
  · cases ho
    cases ha
  · split_ifs at ho
    exact hsome _ ho
  · exact hsome _ ho

theorem produces_variant {plain : String → Except JsonProblem α}
    {payload : String → Except JsonProblem (Reader α)} {P : α → Prop}
    (hplain : ∀ name a, plain name = .ok a → P a)
    (hpayload : ∀ name read, payload name = .ok read → Produces read P) :
    Produces (variant plain payload) P := by
  intro s a h
  cases s with
  | string text =>
    obtain ⟨name, -, h⟩ := bind_ok h
    exact hplain name a h
  | object entries stop =>
    cases entries with
    | nil => cases stop <;> cases h
    | cons entry rest =>
      obtain ⟨name, -, h⟩ := bind_ok h
      obtain ⟨read, hread, h⟩ := bind_ok h
      obtain ⟨b, hb, h⟩ := bind_ok h
      split_ifs at h
      · cases h
      · obtain ⟨-, -, h⟩ := bind_ok h
        cases h
        exact hpayload name read hread _ _ hb
  | _ => cases h

theorem produces_record {start : α} {fields : List (Reader.Field α)} {P : α → Prop}
    (hstart : P start) (hkeeps : ∀ f ∈ fields, Keeps P f) : Produces (record start fields) P := by
  intro s a h
  cases s with
  | object entries stop =>
    obtain ⟨⟨b, seen⟩, hfold, h⟩ := bind_ok h
    obtain ⟨-, -, h⟩ := bind_ok h
    split_ifs at h
    cases h
    exact (readMembers_keep (fun f hf _ => hkeeps f hf) hfold hstart).1
  | array items stop => exact readItems_keep hkeeps h hstart
  | _ => cases h

theorem keeps_required {name : String} {read : Reader β} {set : α → β → α} {P : α → Prop}
    {Q : β → Prop} (h : Produces read Q) (hset : ∀ a b, P a → Q b → P (set a b)) :
    Keeps P (Reader.required name read set) := by
  intro a s c ha hc
  obtain ⟨b, hb, rfl⟩ := map_ok hc
  exact hset a b ha (h s b hb)

theorem keeps_optional {name : String} {read : Reader β} {set : α → β → α} {P : α → Prop}
    {Q : β → Prop} (h : Produces read Q) (hset : ∀ a b, P a → Q b → P (set a b)) :
    Keeps P (Reader.optional name read set) := by
  intro a s c ha hc
  obtain ⟨b, hb, rfl⟩ := map_ok hc
  exact hset a b ha (h s b hb)

/-! ## Members that are left out -/

/-- A member that is not there counts as written with its default. -/
def DefaultsTo (read : Reader α) (defaults : List (String × Json)) : Prop :=
  ∀ d ∈ defaults, ∀ (entries : List Entry) (stop : Stop), (∀ entry ∈ entries, entry.1 ≠ .ok d.1) →
    read (.object (entries ++ [(.ok d.1, d.2.source)]) stop) = read (.object entries stop)

/-- Two fields give the same record in either order. -/
def Independent (f g : Reader.Field α) : Prop :=
  ∀ a s t b c, f.read a s = .ok b → g.read a t = .ok c →
    ∃ d, f.read c s = .ok d ∧ g.read b t = .ok d

theorem independent_symm {f g : Reader.Field α} (h : Independent f g) : Independent g f := by
  intro a s t b c hb hc
  obtain ⟨d, hf, hg⟩ := h a t s c b hc hb
  exact ⟨d, hg, hf⟩

instance : Std.Symm (@Independent α) := ⟨fun _ _ => independent_symm⟩

theorem independent_mk {γ : Type} {n m : String} {q r : Bool} {readf : Reader β} {readg : Reader γ}
    {setf : α → β → α} {setg : α → γ → α}
    (h : ∀ a v w, setf (setg a w) v = setg (setf a v) w) :
    Independent ⟨n, q, fun a s => setf a <$> readf s⟩ ⟨m, r, fun a s => setg a <$> readg s⟩ := by
  intro a s t b c hb hc
  obtain ⟨v, hv, rfl⟩ := map_ok hb
  obtain ⟨w, hw, rfl⟩ := map_ok hc
  refine ⟨setf (setg a w) v, ?_, ?_⟩
  · simp only [hv]
    rfl
  · simp only [hw, h]
    rfl

section
variable {γ : Type} {n m : String} {readf : Reader β} {readg : Reader γ} {setf : α → β → α}
  {setg : α → γ → α}

@[simp]
theorem independent_required_required (h : ∀ a v w, setf (setg a w) v = setg (setf a v) w) :
    Independent (Reader.required n readf setf) (Reader.required m readg setg) :=
  independent_mk h

@[simp]
theorem independent_required_optional (h : ∀ a v w, setf (setg a w) v = setg (setf a v) w) :
    Independent (Reader.required n readf setf) (Reader.optional m readg setg) :=
  independent_mk h

@[simp]
theorem independent_optional_required (h : ∀ a v w, setf (setg a w) v = setg (setf a v) w) :
    Independent (Reader.optional n readf setf) (Reader.required m readg setg) :=
  independent_mk h

@[simp]
theorem independent_optional_optional (h : ∀ a v w, setf (setg a w) v = setg (setf a v) w) :
    Independent (Reader.optional n readf setf) (Reader.optional m readg setg) :=
  independent_mk h

end

/-- Defaults of the fields that are not required, in the order of the fields: each is what the
record that the reader starts from holds. -/
inductive Defaults (start : α) : List (Reader.Field α) → List (String × Json) → Prop
  | nil : Defaults start [] []
  | required {field : Reader.Field α} {fields : List (Reader.Field α)}
      {defaults : List (String × Json)} (h : field.isRequired = true)
      (hrest : Defaults start fields defaults) : Defaults start (field :: fields) defaults
  | optional {β : Type} {name : String} {read : Reader β} {set : α → β → α} {j : Json} {b : β}
      {fields : List (Reader.Field α)} {defaults : List (String × Json)} (h : ReadsAs read j b)
      (hset : set start b = start) (hrest : Defaults start fields defaults) :
      Defaults start (Reader.optional name read set :: fields) ((name, j) :: defaults)

theorem Defaults.exists_field {start : α} {fields : List (Reader.Field α)}
    {defaults : List (String × Json)} (h : Defaults start fields defaults) {d : String × Json}
    (hd : d ∈ defaults) : ∃ f ∈ fields, f.name = d.1 ∧ f.isRequired = false ∧
      f.read start d.2.source = .ok start := by
  induction h with
  | nil => exact absurd hd List.not_mem_nil
  | required _ _ ih =>
    obtain ⟨f, hf, hfield⟩ := ih hd
    exact ⟨f, List.mem_cons_of_mem _ hf, hfield⟩
  | @optional β name read set j b fields defaults h hset _ ih =>
    rcases List.mem_cons.1 hd with rfl | hd
    · refine ⟨_, List.mem_cons_self, rfl, rfl, ?_⟩
      have hread := (h.map (set start)).reads
      rwa [hset] at hread
    · obtain ⟨f, hf, hfield⟩ := ih hd
      exact ⟨f, List.mem_cons_of_mem _ hf, hfield⟩

/-- It is all the same for the members that are required whether one that is not is given. -/
theorem all_given_cons {fields : List (Reader.Field α)} (hnames : (fields.map (·.name)).Nodup)
    {f : Reader.Field α} (hf : f ∈ fields) (hoptional : f.isRequired = false)
    (seen : List String) :
    (fields.all fun g => !g.isRequired || decide (g.name ∈ f.name :: seen)) =
      fields.all fun g => !g.isRequired || decide (g.name ∈ seen) := by
  rw [Bool.eq_iff_iff, List.all_eq_true, List.all_eq_true]
  refine forall₂_congr fun g hg => ?_
  by_cases hname : g.name = f.name
  · have hgf := find?_name hnames hg
    rw [hname, find?_name hnames hf] at hgf
    simp [← Option.some.inj hgf, hoptional]
  · simp [hname]

/-- **Members that are left out stand for their defaults** in a record, if its fields can be given
in any order and the defaults are those of the record that it starts from. -/
theorem record_defaultsTo {start : α} {fields : List (Reader.Field α)}
    {defaults : List (String × Json)} (hnames : (fields.map (·.name)).Nodup)
    (hfields : fields.Pairwise Independent) (hdefaults : Defaults start fields defaults) :
    DefaultsTo (record start fields) defaults := by
  intro d hd entries stop habsent
  obtain ⟨f, hf, hname, hoptional, hstart⟩ := hdefaults.exists_field hd
  -- The default changes nothing, as it changes nothing at the start and the others commute with it.
  have hkeeps : ∀ g ∈ fields, (∃ entry ∈ entries, entry.1 = .ok g.name) →
      Keeps (fun a => f.read a d.2.source = .ok a) g := by
    intro g hg ⟨entry, hentry, hkey⟩ a s b ha hb
    have hne : f ≠ g := by
      rintro rfl
      exact habsent entry hentry (hname ▸ hkey)
    obtain ⟨c, hfc, hgc⟩ := (hfields.forall hf hg hne) a _ s a b ha hb
    rw [hb] at hgc
    cases hgc
    exact hfc
  simp only [record, List.foldlM_append, List.foldlM_cons, List.foldlM_nil]
  cases hfold : entries.foldlM (readMember fields) (start, []) with
  | error p => rfl
  | ok state =>
    obtain ⟨a, seen⟩ := state
    obtain ⟨ha, hseen⟩ := readMembers_keep hkeeps hfold hstart
    have hnew : f.name ∉ seen := by
      intro hmem
      rcases hseen _ hmem with hmem | ⟨entry, hentry, hkey⟩
      · exact List.not_mem_nil hmem
      · exact habsent entry hentry (hname ▸ hkey)
    have hmember := readMember_given (find?_name hnames hf) hnew ha
    rw [hname] at hmember
    have hall := all_given_cons hnames hf hoptional seen
    rw [hname] at hall
    simp only [bind, Except.bind, hmember, pure, Except.pure, hall]

theorem DefaultsTo.bind {read : Reader α} {defaults : List (String × Json)}
    (h : DefaultsTo read defaults) (f : α → Except JsonProblem β) :
    DefaultsTo (fun s => read s >>= f) defaults := by
  intro d hd entries stop habsent
  dsimp only
  rw [h d hd entries stop habsent]

end

end Chiptune.Json
