import Chiptune.Proofs.Results
import Chiptune.Tables
import Mathlib.Data.List.Find

/-!
# Tables that grow

A compile only adds to its shared tables: whatever they held they still hold under the same number
(`Tables.Extends`). So a number that a stream uses means the same in the final tables.

* `UniqueTable.grows_intern`: a byte string that was found once is found at the same index.
* `Tables.name?_symbol`: the number of a name is its number from then on.
* `Tables.vibrato_ok`: a vibrato gets a curve of its own and keeps it.
* `Tables.Findable`: the default curve and those of the vibratos are found, each under one checksum.
-/

set_option autoImplicit false

namespace Chiptune

namespace UniqueTable

theorem get?_intern {t : UniqueTable} {index : Nat} {entry : List UInt8} (bytes : List UInt8)
    (tag : UInt8) (h : t.get? index = some entry) :
    (t.intern bytes tag).2.get? index = some entry := by
  rw [get?] at h ⊢
  unfold intern
  split
  · exact h
  · simp only [Array.getElem?_push]
    have hlt := (Array.getElem?_eq_some_iff.1 h).1
    rw [if_neg (Nat.ne_of_lt hlt), h]

/-- A byte string is found where it is. -/
theorem get?_of_find? {t : UniqueTable} {bytes : List UInt8} {tag : UInt8} {index : Nat}
    (h : t.find? bytes tag = some index) : t.get? index = some bytes := by
  rw [find?] at h
  have hentry := List.find?_some h
  exact beq_iff_eq.1 hentry

theorem get?_intern_self (t : UniqueTable) (bytes : List UInt8) (tag : UInt8) :
    (t.intern bytes tag).2.get? (t.intern bytes tag).1 = some bytes := by
  unfold intern
  split
  · rename_i index hfind
    exact get?_of_find? hfind
  · simp [get?]

/-- The indices under every checksum are those of entries. -/
def Indexed (t : UniqueTable) : Prop :=
  ∀ key, ∀ index ∈ t.buckets.getD key [], index < t.entries.size

theorem indexed_empty : empty.Indexed := by
  intro key index hindex
  simp [empty] at hindex

/-- No entry stands under two checksums. -/
def Disjoint (t : UniqueTable) : Prop :=
  ∀ key key' index, index ∈ t.buckets.getD key [] → index ∈ t.buckets.getD key' [] → key = key'

theorem disjoint_empty : empty.Disjoint := by
  intro key key' index hindex
  simp [empty] at hindex

/-- An entry is found under one checksum. -/
theorem Disjoint.key_eq {t : UniqueTable} (h : t.Disjoint) {bytes bytes' : List UInt8}
    {tag tag' : UInt8} {index : Nat} (hf : t.find? bytes tag = some index)
    (hf' : t.find? bytes' tag' = some index) : key bytes tag = key bytes' tag' :=
  h _ _ index (List.mem_of_find?_eq_some hf) (List.mem_of_find?_eq_some hf')

/-- What the first table finds, the second one finds at the same index. -/
structure Grows (t t' : UniqueTable) : Prop where
  indexed : t.Indexed → t'.Indexed
  find? : t.Indexed → ∀ bytes tag index, t.find? bytes tag = some index →
    t'.find? bytes tag = some index
  disjoint : t.Indexed → t.Disjoint → t'.Disjoint

theorem Grows.refl (t : UniqueTable) : t.Grows t := ⟨id, fun _ _ _ _ h => h, fun _ h => h⟩

theorem Grows.trans {t t' t'' : UniqueTable} (h : t.Grows t') (h' : t'.Grows t'') : t.Grows t'' :=
  ⟨fun hi => h'.indexed (h.indexed hi),
    fun hi bytes tag index hf => h'.find? (h.indexed hi) _ _ _ (h.find? hi bytes tag index hf),
    fun hi hd => h'.disjoint (h.indexed hi) (h.disjoint hi hd)⟩

/-- The bucket of a checksum behind a new entry. -/
theorem getD_insert (t : UniqueTable) (added key : UInt32) :
    (t.buckets.insert added (t.buckets.getD added [] ++ [t.entries.size])).getD key [] =
      t.buckets.getD key [] ++ if added = key then [t.entries.size] else [] := by
  rw [Std.HashMap.getD_insert]
  by_cases h : added = key
  · simp [h]
  · simp [h]

/-- A byte string that was found once is found at the same index. -/
theorem grows_intern (t : UniqueTable) (bytes : List UInt8) (tag : UInt8) :
    t.Grows (t.intern bytes tag).2 := by
  unfold intern
  split
  · exact .refl t
  refine ⟨fun hi k index hindex => ?_, fun hi other tag' index hfind => ?_, fun hi hd => ?_⟩
  · rw [getD_insert] at hindex
    rw [Array.size_push]
    rcases List.mem_append.1 hindex with hindex | hindex
    · exact Nat.lt_succ_of_lt (hi k index hindex)
    · split at hindex
      · rw [List.mem_singleton.1 hindex]
        exact Nat.lt_succ_self _
      · cases hindex
  · -- the older entries come first in every bucket
    have hsame : ∀ i ∈ t.buckets.getD (key other tag') [],
        ((t.entries.push bytes)[i]? == some other) = (t.entries[i]? == some other) := by
      intro i hmem
      rw [Array.getElem?_push, if_neg (Nat.ne_of_lt (hi _ i hmem))]
    rw [find?] at hfind ⊢
    rw [getD_insert, List.find?_append, List.find?_congr hsame, hfind]
    rfl
  · -- the new entry stands under its own checksum only
    have hnew : ∀ k, t.entries.size ∉ t.buckets.getD k [] := fun k hmem =>
      absurd (hi k _ hmem) (Nat.lt_irrefl _)
    intro k k' index hk hk'
    rw [getD_insert, List.mem_append] at hk hk'
    have hadded : ∀ {k : UInt32}, index ∈ (if UniqueTable.key bytes tag = k then [t.entries.size]
        else []) → index = t.entries.size ∧ UniqueTable.key bytes tag = k := by
      intro k hmem
      split at hmem
      · exact ⟨List.mem_singleton.1 hmem, ‹_›⟩
      · cases hmem
    rcases hk with hk | hk <;> rcases hk' with hk' | hk'
    · exact hd k k' index hk hk'
    · exact absurd ((hadded hk').1 ▸ hk) (hnew k)
    · exact absurd ((hadded hk).1 ▸ hk') (hnew k')
    · exact (hadded hk).2.symm.trans (hadded hk').2

/-- A byte string is found behind its first use. -/
theorem find?_intern {t : UniqueTable} (h : t.Indexed) (bytes : List UInt8) (tag : UInt8) :
    (t.intern bytes tag).2.find? bytes tag = some (t.intern bytes tag).1 := by
  unfold intern
  split
  · assumption
  rename_i hnone
  have hold : ∀ i ∈ t.buckets.getD (key bytes tag) [],
      ¬ ((t.entries.push bytes)[i]? == some bytes) = true := by
    intro i hmem
    rw [Array.getElem?_push, if_neg (Nat.ne_of_lt (h _ i hmem))]
    rw [find?] at hnone
    exact List.find?_eq_none.1 hnone i hmem
  rw [find?, getD_insert, if_pos rfl, List.find?_append, List.find?_eq_none.2 hold]
  simp

end UniqueTable

/-- The bytes of a curve do not depend on the warnings before it. -/
theorem Curve.encode_log (e : Envelope) (profile : Curve.Profile) (log log' : Log) :
    (Curve.encode e profile log).map Prod.fst = (Curve.encode e profile log').map Prod.fst := by
  unfold Curve.encode
  split
  · rfl
  · simp only
    split
    · rfl
    · generalize Curve.encodeRuns _ _ _ = curve
      cases curve <;> rfl

theorem Curve.encodeInstrument_log (e : Envelope) (kind : EnvelopeKind) (kernel : Kernel)
    (log log' : Log) : (Curve.encodeInstrument e kind kernel log).map Prod.fst =
      (Curve.encodeInstrument e kind kernel log').map Prod.fst := by
  unfold Curve.encodeInstrument
  split
  · rfl
  · exact Curve.encode_log ..
namespace Tables

/-- The curve of a vibrato with a given speed and depth. -/
def IsVibrato (speed depth : UInt8) (bytes : List UInt8) : Prop :=
  ∃ curve log log', Curve.encode (Curve.vibrato speed depth) ⟨false, true⟩ log =
    .ok (curve, log') ∧ bytes = curve.getD Curve.default

/-- Entry 0 of the curves is the default curve, and a vibrato that was used has its own curve. -/
structure Sound (t : Tables) : Prop where
  default : t.curves.get? defaultCurve = some Curve.default
  vibratos : ∀ key index, t.vibratos.lookup key = some index →
    ∃ bytes, t.curves.get? index = some bytes ∧ IsVibrato key.1 key.2 bytes

/-- The default curve and the curves of vibratos are found where they are. -/
structure Findable (t : Tables) : Prop where
  indexed : t.curves.Indexed
  disjoint : t.curves.Disjoint
  default : t.curves.find? Curve.default 0 = some defaultCurve
  vibratos : ∀ key index, t.vibratos.lookup key = some index →
    ∃ bytes, t.curves.find? bytes 0 = some index ∧ IsVibrato key.1 key.2 bytes

/-- Whatever the first tables hold, the second ones hold under the same number; they are sound if
the first are. -/
structure Extends (t t' : Tables) : Prop where
  symbols : ∃ more, t'.symbols.names = t.symbols.names ++ more
  curves : ∀ index bytes, t.curves.get? index = some bytes → t'.curves.get? index = some bytes
  found : t.curves.Grows t'.curves
  grooves : t.grooves.Grows t'.grooves
  vibratos : ∀ key index, t.vibratos.lookup key = some index → t'.vibratos.lookup key = some index
  sound : t.Sound → t'.Sound
  findable : t.Findable → t'.Findable

theorem Extends.refl (t : Tables) : t.Extends t :=
  ⟨⟨#[], by simp⟩, fun _ _ h => h, .refl _, .refl _, fun _ _ h => h, id, id⟩

theorem Extends.trans {t t' t'' : Tables} (h : t.Extends t') (h' : t'.Extends t'') :
    t.Extends t'' := by
  obtain ⟨more, hm⟩ := h.symbols
  obtain ⟨more', hm'⟩ := h'.symbols
  exact ⟨⟨more ++ more', by rw [hm', hm, Array.append_assoc]⟩,
    fun i b hi => h'.curves i b (h.curves i b hi), h.found.trans h'.found,
    h.grooves.trans h'.grooves, fun k i hi => h'.vibratos k i (h.vibratos k i hi),
    fun hs => h'.sound (h.sound hs), fun hf => h'.findable (h.findable hf)⟩

/-- A name keeps its number. -/
theorem Extends.name? {t t' : Tables} (h : t.Extends t') {id : Nat} {name : String}
    (hn : t.symbols.name? id = some name) : t'.symbols.name? id = some name := by
  obtain ⟨more, hm⟩ := h.symbols
  rw [Symbols.name?] at hn ⊢
  rw [hm, Array.getElem?_append_left (Array.getElem?_eq_some_iff.1 hn).1, hn]

theorem Extends.size_names {t t' : Tables} (h : t.Extends t') :
    t.symbols.names.size ≤ t'.symbols.names.size := by
  obtain ⟨more, hm⟩ := h.symbols
  rw [hm, Array.size_append]
  exact Nat.le_add_right _ _

/-- A number that stands for a name is below the number of names. -/
theorem lt_of_name? {t : Tables} {id : Nat} {name : String}
    (h : t.symbols.name? id = some name) : id < t.symbols.names.size :=
  (Array.getElem?_eq_some_iff.1 h).1

theorem extends_logging (t : Tables) (change : Log → Log) : t.Extends (t.logging change) :=
  ⟨⟨#[], by simp [logging]⟩, fun _ _ h => h, .refl _, .refl _, fun _ _ h => h,
    fun h => ⟨h.default, h.vibratos⟩, fun h => ⟨h.indexed, h.disjoint, h.default, h.vibratos⟩⟩

theorem extends_symbol (t : Tables) (name : String) : t.Extends (t.symbol name).2 := by
  refine ⟨?_, fun _ _ h => h, .refl _, .refl _, fun _ _ h => h, fun h => ⟨h.default, h.vibratos⟩,
    fun h => ⟨h.indexed, h.disjoint, h.default, h.vibratos⟩⟩
  simp only [symbol, Symbols.intern]
  split
  · exact ⟨#[], by simp⟩
  · exact ⟨#[name], by simp⟩

/-- The number of a name is its number from then on. -/
theorem name?_symbol (t : Tables) (name : String) :
    (t.symbol name).2.symbols.name? (t.symbol name).1 = some name := by
  simp only [symbol, Symbols.intern, Symbols.name?]
  split
  · rename_i id hid
    obtain ⟨hlt, hp, -⟩ := Array.findIdx?_eq_some_iff_getElem.1 hid
    rw [Array.getElem?_eq_getElem hlt, beq_iff_eq.1 hp]
  · simp

/-- Number of a name that was used. -/
def number? (t : Tables) (name : String) : Option Nat := t.symbols.names.findIdx? (· == name)

theorem name?_of_number? {t : Tables} {name : String} {id : Nat} (h : t.number? name = some id) :
    t.symbols.name? id = some name := by
  obtain ⟨hlt, hname, -⟩ := Array.findIdx?_eq_some_iff_getElem.1 h
  rw [Symbols.name?, Array.getElem?_eq_getElem hlt, beq_iff_eq.1 hname]

theorem number?_symbol (t : Tables) (name : String) :
    (t.symbol name).2.number? name = some (t.symbol name).1 := by
  simp only [number?, symbol, Symbols.intern]
  split
  · assumption
  · rename_i hnone
    simp [Array.findIdx?_push, hnone]

/-- A name that has a number gets no other. -/
theorem Extends.number? {t t' : Tables} (h : t.Extends t') {name : String} {id : Nat}
    (hn : t.number? name = some id) : t'.number? name = some id := by
  obtain ⟨more, hm⟩ := h.symbols
  rw [Tables.number?] at hn ⊢
  rw [hm, Array.findIdx?_append, hn]
  rfl

theorem Extends.symbol_eq {t t' : Tables} {name : String} (h : (t.symbol name).2.Extends t') :
    (t'.symbol name).1 = (t.symbol name).1 := by
  have hn := h.number? (t.number?_symbol name)
  rw [Tables.number?] at hn
  simp only [symbol, Symbols.intern, hn]

/-- The tables of a new compile are sound. -/
theorem sound_default : ({} : Tables).Sound := by
  refine ⟨?_, fun _ _ h => ?_⟩
  · have hindex : (UniqueTable.empty.intern Curve.default 0).1 = defaultCurve := by
      simp [UniqueTable.intern, UniqueTable.find?, UniqueTable.empty, defaultCurve]
    exact hindex ▸ UniqueTable.get?_intern_self UniqueTable.empty Curve.default 0
  · cases h

/-- The default curve of a new compile is found. -/
theorem findable_default : ({} : Tables).Findable := by
  have hindexed : UniqueTable.empty.Indexed := UniqueTable.indexed_empty
  have hgrows := UniqueTable.grows_intern UniqueTable.empty Curve.default 0
  have hindex : (UniqueTable.empty.intern Curve.default 0).1 = defaultCurve := by
    simp [UniqueTable.intern, UniqueTable.find?, UniqueTable.empty, defaultCurve]
  refine ⟨hgrows.indexed hindexed, hgrows.disjoint hindexed UniqueTable.disjoint_empty, ?_,
    fun _ _ h => ?_⟩
  · exact hindex ▸ UniqueTable.find?_intern hindexed Curve.default 0
  · cases h

theorem extends_groove (t : Tables) (groove : List UInt8) : t.Extends (t.groove groove).2 :=
  ⟨⟨#[], by simp [Tables.groove]⟩, fun _ _ h => h, .refl _, UniqueTable.grows_intern _ _ _,
    fun _ _ h => h, fun h => ⟨h.default, h.vibratos⟩,
    fun h => ⟨h.indexed, h.disjoint, h.default, h.vibratos⟩⟩

theorem extends_addCurve (t : Tables) (bytes : List UInt8) (relative : Bool) :
    t.Extends (t.addCurve bytes relative).2 := by
  have hgrows := t.curves.grows_intern bytes (if relative then 1 else 0)
  refine ⟨⟨#[], by simp [addCurve]⟩, fun _ _ h => UniqueTable.get?_intern _ _ h, hgrows, .refl _,
    fun _ _ h => h, fun h => ?_, fun h => ?_⟩
  · refine ⟨UniqueTable.get?_intern _ _ h.default, fun key index hk => ?_⟩
    obtain ⟨entry, he, hv⟩ := h.vibratos key index hk
    exact ⟨entry, UniqueTable.get?_intern _ _ he, hv⟩
  · refine ⟨hgrows.indexed h.indexed, hgrows.disjoint h.indexed h.disjoint,
      hgrows.find? h.indexed _ _ _ h.default, fun key index hk => ?_⟩
    obtain ⟨entry, he, hv⟩ := h.vibratos key index hk
    exact ⟨entry, hgrows.find? h.indexed _ _ _ he, hv⟩

/-- A vibrato gets a curve of its own and keeps it. -/
theorem vibrato_ok {t t' : Tables} {v : Vibrato} {index : Nat}
    (h : t.vibrato v = .ok (index, t')) :
    t.Extends t' ∧ t'.vibratos.lookup (vibratoKey v) = some index := by
  simp only [vibrato] at h
  split at h
  · rename_i hlookup
    cases h
    exact ⟨.refl _, hlookup⟩
  rename_i hnone
  obtain ⟨⟨curve, log⟩, hcurve, h⟩ := bind_ok h
  have hself : ((vibratoKey v, index) :: t.vibratos).lookup (vibratoKey v) = some index := by
    simp
  have hother : ∀ {key}, key ≠ vibratoKey v →
      ((vibratoKey v, index) :: t.vibratos).lookup key = t.vibratos.lookup key := by
    intro key hne
    rw [List.lookup_cons, beq_eq_false_iff_ne.2 hne]
  have hkeep : ∀ key index', t.vibratos.lookup key = some index' →
      ((vibratoKey v, index) :: t.vibratos).lookup key = some index' := by
    intro key index' hk
    rw [hother, hk]
    rintro rfl
    rw [hnone] at hk
    cases hk
  -- the new entry is the curve of the vibrato, the others stay what they were
  have hkeys : ∀ holds holds' : List UInt8 → Nat → Prop, (∀ b i, holds b i → holds' b i) →
      holds' (curve.getD Curve.default) index →
      (∀ key i, t.vibratos.lookup key = some i → ∃ bytes, holds bytes i ∧
        IsVibrato key.1 key.2 bytes) →
      ∀ key i, ((vibratoKey v, index) :: t.vibratos).lookup key = some i →
        ∃ bytes, holds' bytes i ∧ IsVibrato key.1 key.2 bytes := by
    intro holds holds' hgrow hnew hs key i hk
    by_cases hkey : key = vibratoKey v
    · subst hkey
      rw [hself] at hk
      cases hk
      exact ⟨_, hnew, curve, _, _, hcurve, rfl⟩
    · rw [hother hkey] at hk
      obtain ⟨bytes, hb, hv⟩ := hs key i hk
      exact ⟨bytes, hgrow bytes i hb, hv⟩
  cases curve with
  | none =>
    cases h
    refine ⟨⟨⟨#[], by simp⟩, fun _ _ h => h, .refl _, .refl _, hkeep, fun hs => ?_, fun hf => ?_⟩,
      hself⟩
    · exact ⟨hs.default, hkeys (fun b i => t.curves.get? i = some b) _ (fun _ _ h => h) hs.default
        hs.vibratos⟩
    · exact ⟨hf.indexed, hf.disjoint, hf.default, hkeys (fun b i => t.curves.find? b 0 = some i) _
        (fun _ _ h => h) hf.default hf.vibratos⟩
  | some bytes =>
    cases h
    have hgrows := t.curves.grows_intern bytes 0
    refine ⟨⟨⟨#[], by simp [addCurve]⟩, fun _ _ h => UniqueTable.get?_intern _ _ h, hgrows,
      .refl _, hkeep, fun hs => ?_, fun hf => ?_⟩, hself⟩
    · exact ⟨UniqueTable.get?_intern _ _ hs.default, hkeys (fun b i => t.curves.get? i = some b) _
        (fun _ _ h => UniqueTable.get?_intern _ _ h) (UniqueTable.get?_intern_self _ _ _)
        hs.vibratos⟩
    · exact ⟨hgrows.indexed hf.indexed, hgrows.disjoint hf.indexed hf.disjoint,
        hgrows.find? hf.indexed _ _ _ hf.default, hkeys (fun b i => t.curves.find? b 0 = some i) _
        (fun b i h => hgrows.find? hf.indexed b 0 i h) (UniqueTable.find?_intern hf.indexed _ _)
        hf.vibratos⟩

end Tables

end Chiptune
