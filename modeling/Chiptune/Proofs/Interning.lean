import Chiptune.Proofs.Tables
import Mathlib.Data.Finset.Card
import Mathlib.Data.Finset.Dedup
import Mathlib.Data.Nat.Bitwise

/-!
# Interned byte strings

A unique table looks for a byte string under the checksum of its bytes and its tag, and compares
only the bytes of what it finds there. The tag is the last byte of what is summed, and the checksum
tells last bytes apart (`Checksum.crc32_concat_inj`), so equal bytes under one checksum have equal
tags; different bytes of one checksum are told apart by the comparison. Hence a table numbers pairs
of bytes and tag (`UniqueTable.Numbers`), whatever checksums they have.

* `UniqueTable.Numbers.intern`: what one call does to the numbered pairs.
* `UniqueTable.Numbers.internAll`: the index of a pair is its place among the different pairs.
* `UniqueTable.intern_exact`: **same index just for same bytes and same tag**, in order of first
  appearance, and every index reads back its bytes.
-/

set_option autoImplicit false

namespace Chiptune

/-! ## The checksum and the last byte -/

namespace Checksum

theorem toNat_shiftBit (crc : UInt32) :
    (shiftBit crc).toNat = if crc.toNat % 2 = 1 then crc.toNat / 2 ^^^ polynomial.toNat
      else crc.toNat / 2 := by
  have hlow : crc &&& 1 = 1 ↔ crc.toNat % 2 = 1 := by
    rw [← UInt32.toNat_inj, UInt32.toNat_and]
    simp [Nat.and_one_is_mod]
  have hhalf : (crc >>> 1).toNat = crc.toNat / 2 := by simp [Nat.shiftRight_eq_div_pow]
  unfold shiftBit
  by_cases h : crc.toNat % 2 = 1
  · rw [if_pos (hlow.2 h), if_pos h, UInt32.toNat_xor, hhalf]
  · rw [if_neg (mt hlow.1 h), if_neg h, hhalf]

/-- The highest bit of a shifted register says whether the lowest was set. -/
theorem testBit_shiftBit (crc : UInt32) :
    (shiftBit crc).toNat.testBit 31 = decide (crc.toNat % 2 = 1) := by
  have hlt : crc.toNat / 2 < 2 ^ 31 := by have := crc.toNat_lt; omega
  have hhalf : (crc.toNat / 2).testBit 31 = false := Nat.testBit_lt_two_pow hlt
  have hpoly : polynomial.toNat.testBit 31 = true := by decide
  rw [toNat_shiftBit]
  by_cases h : crc.toNat % 2 = 1
  · simp [h, Nat.testBit_xor, hhalf, hpoly]
  · simp [h, hhalf]

/-- No two registers are shifted to the same one. -/
theorem shiftBit_inj {a b : UInt32} (h : shiftBit a = shiftBit b) : a = b := by
  have hbit := testBit_shiftBit a
  rw [h, testBit_shiftBit, decide_eq_decide] at hbit
  have hnat := congrArg UInt32.toNat h
  rw [toNat_shiftBit, toNat_shiftBit] at hnat
  refine UInt32.toNat_inj.1 ?_
  by_cases hb : b.toNat % 2 = 1
  · rw [if_pos hb, if_pos (hbit.1 hb)] at hnat
    have hhalf := Nat.xor_left_inj.1 hnat
    omega
  · rw [if_neg hb, if_neg (mt hbit.2 hb)] at hnat
    omega

theorem step_inj {crc : UInt32} {a b : UInt8} (h : step crc a = step crc b) : a = b := by
  unfold step at h
  have hxor : crc ^^^ a.toUInt32 = crc ^^^ b.toUInt32 := by
    iterate 8 replace h := shiftBit_inj h
    exact h
  have hwide : a.toUInt32 = b.toUInt32 := (UInt32.xor_right_inj crc).1 hxor
  exact UInt8.toNat_inj.1 (by simpa using congrArg UInt32.toNat hwide)

/-- **The checksum tells texts apart that differ in their last byte only.** -/
theorem crc32_concat_inj (bytes : List UInt8) {a b : UInt8}
    (h : crc32 (bytes ++ [a]) = crc32 (bytes ++ [b])) : a = b := by
  simp only [crc32, List.foldl_append, List.foldl_cons, List.foldl_nil] at h
  exact step_inj ((UInt32.xor_left_inj _).1 h)

end Checksum

/-! ## Numbered pairs -/

namespace UniqueTable

/-- A byte string with its tag. -/
abbrev Call := List UInt8 × UInt8

/-- The table numbers some different pairs: the entries are their bytes, and each index stands under
the checksum of its pair. -/
structure Numbers (t : UniqueTable) (pairs : List Call) : Prop where
  nodup : pairs.Nodup
  entries : t.toList = pairs.map (·.1)
  bucket : ∀ k index, index ∈ t.buckets.getD k [] ↔ ∃ p, pairs[index]? = some p ∧ key p.1 p.2 = k

theorem numbers_empty : empty.Numbers [] := ⟨.nil, rfl, by simp [empty]⟩

variable {t : UniqueTable} {pairs : List Call}

theorem Numbers.size (h : t.Numbers pairs) : t.size = pairs.length := by
  have hlength := congrArg List.length h.entries
  simpa [toList, UniqueTable.size] using hlength

theorem Numbers.get? (h : t.Numbers pairs) (index : Nat) :
    t.get? index = pairs[index]?.map (·.1) := by
  rw [UniqueTable.get?, ← Array.getElem?_toList, ← List.getElem?_map, ← h.entries]
  rfl

/-- What is found under a checksum has the tag that was looked for. -/
theorem Numbers.found (h : t.Numbers pairs) {c : Call} {index : Nat}
    (hfind : t.find? c.1 c.2 = some index) : pairs[index]? = some c := by
  obtain ⟨p, hp, hkey⟩ := (h.bucket _ _).1 (List.mem_of_find?_eq_some hfind)
  have hbytes := get?_of_find? hfind
  rw [h.get?, hp, Option.map_some, Option.some.injEq] at hbytes
  rw [key, key, hbytes] at hkey
  rw [hp, ← Prod.eta p, hbytes, Checksum.crc32_concat_inj c.1 hkey]

/-- A pair is found where it is. -/
theorem Numbers.find?_of_mem (h : t.Numbers pairs) {c : Call} (hc : c ∈ pairs) :
    t.find? c.1 c.2 = some (pairs.idxOf c) := by
  have hlt := List.idxOf_lt_length_of_mem hc
  have hat : pairs[pairs.idxOf c]? = some c := by
    rw [List.getElem?_eq_getElem hlt, List.getElem_idxOf]
  have hmem := (h.bucket (key c.1 c.2) (pairs.idxOf c)).2 ⟨c, hat, rfl⟩
  cases hfind : t.find? c.1 c.2 with
  | some index =>
    have hindex := h.found hfind
    rw [← hat] at hindex
    rw [(List.getElem?_inj hlt h.nodup).1 hindex.symm]
  | none =>
    rw [UniqueTable.find?, List.find?_eq_none] at hfind
    refine absurd ?_ (hfind _ hmem)
    have hentry := h.get? (pairs.idxOf c)
    rw [hat] at hentry
    simpa [UniqueTable.get?] using hentry

theorem Numbers.find?_of_notMem (h : t.Numbers pairs) {c : Call} (hc : c ∉ pairs) :
    t.find? c.1 c.2 = none := by
  cases hfind : t.find? c.1 c.2 with
  | none => rfl
  | some index => exact absurd (List.mem_of_getElem? (h.found hfind)) hc

/-- A new pair gets the next index. -/
theorem Numbers.add (h : t.Numbers pairs) {c : Call} (hc : c ∉ pairs) :
    (t.intern c.1 c.2).1 = pairs.length ∧ (t.intern c.1 c.2).2.Numbers (pairs ++ [c]) := by
  have hsize : t.entries.size = pairs.length := h.size
  simp only [UniqueTable.intern, h.find?_of_notMem hc]
  refine ⟨hsize, ?_, ?_, fun k index => ?_⟩
  · exact List.nodup_append.2 ⟨h.nodup, List.nodup_singleton c, by grind⟩
  · have hentries : t.entries.toList = pairs.map (·.1) := h.entries
    simp [UniqueTable.toList, hentries]
  · rw [getD_insert, List.mem_append, h.bucket, List.getElem?_append, hsize]
    by_cases hlt : index < pairs.length
    · have hne : index ≠ pairs.length := Nat.ne_of_lt hlt
      by_cases hkey : key c.1 c.2 = k <;> simp [hlt, hne, hkey]
    · by_cases heq : index = pairs.length
      · by_cases hkey : key c.1 c.2 = k <;> simp [heq, hkey]
      · have hbehind : [c][index - pairs.length]? = none := List.getElem?_eq_none (by simp; omega)
        by_cases hkey : key c.1 c.2 = k <;> simp [hlt, hbehind, heq, hkey]

/-- **A call gives a pair its place among the different pairs of all calls so far.** -/
theorem Numbers.intern {past : List Call} (h : t.Numbers past.eraseDups) (c : Call) :
    (t.intern c.1 c.2).1 = (past ++ [c]).eraseDups.idxOf c ∧
      (t.intern c.1 c.2).2.Numbers (past ++ [c]).eraseDups := by
  by_cases hc : c ∈ past
  · have hsame : (past ++ [c]).eraseDups = past.eraseDups := by
      simp [List.eraseDups_append, List.removeAll, hc]
    have hfind := h.find?_of_mem (List.mem_eraseDups.2 hc)
    rw [hsame, UniqueTable.intern, hfind]
    exact ⟨rfl, h⟩
  · have hmore : (past ++ [c]).eraseDups = past.eraseDups ++ [c] := by
      simp [List.eraseDups_append, List.removeAll, List.eraseDups_cons, hc]
    have hnew : c ∉ past.eraseDups := mt List.mem_eraseDups.1 hc
    obtain ⟨hindex, hnumbers⟩ := h.add hnew
    rw [hmore, List.idxOf_append_of_notMem hnew]
    exact ⟨by simpa using hindex, hnumbers⟩

/-! ## Sequences of calls -/

/-- Indices that a sequence of calls gets, and the table behind them. -/
def internAll (t : UniqueTable) : List Call → List Nat × UniqueTable
  | [] => ([], t)
  | c :: rest =>
    let first := t.intern c.1 c.2
    let others := first.2.internAll rest
    (first.1 :: others.1, others.2)

/-- Table to start from: without entries, or with a default. -/
def fresh : Option (List UInt8) → UniqueTable
  | none => empty
  | some bytes => withDefault bytes

/-- The call that a default counts as. -/
def defaultCall (default : Option (List UInt8)) : List Call := default.toList.map (·, 0)

theorem numbers_fresh (default : Option (List UInt8)) :
    (fresh default).Numbers (defaultCall default).eraseDups := by
  cases default with
  | none => exact numbers_empty
  | some bytes =>
    have h : empty.Numbers ([] : List Call).eraseDups := numbers_empty
    exact (h.intern (bytes, 0)).2

/-- **The index of a pair is its place among the different pairs of all calls**, in order of first
appearance. -/
theorem Numbers.internAll {past : List Call} (h : t.Numbers past.eraseDups) (calls : List Call) :
    (t.internAll calls).1 = calls.map (past ++ calls).eraseDups.idxOf ∧
      (t.internAll calls).2.Numbers (past ++ calls).eraseDups := by
  induction calls generalizing t past with
  | nil => exact ⟨rfl, by rwa [List.append_nil]⟩
  | cons c rest ih =>
    obtain ⟨hindex, hnumbers⟩ := h.intern c
    obtain ⟨hindices, hlast⟩ := ih hnumbers
    have hall : past ++ [c] ++ rest = past ++ c :: rest := by simp
    have hmem : c ∈ (past ++ [c]).eraseDups := by simp
    -- later calls only add pairs behind those that are numbered
    have hkept : (past ++ c :: rest).eraseDups.idxOf c = (past ++ [c]).eraseDups.idxOf c := by
      rw [← hall, List.eraseDups_append, List.idxOf_append_of_mem hmem]
    rw [hall] at hindices hlast
    rw [UniqueTable.internAll]
    refine ⟨?_, hlast⟩
    rw [hindices, hindex, List.map_cons, hkept]

/-- The first index is that of the default, if there is one. -/
theorem map_defaultCall (default : Option (List UInt8)) (calls : List Call) :
    (defaultCall default).map (defaultCall default ++ calls).eraseDups.idxOf =
      List.range (defaultCall default).length := by
  cases default with
  | none => rfl
  | some bytes => simp [defaultCall, List.eraseDups_cons]

/-- Places among the different pairs are equal just where the pairs are. -/
theorem getElem?_places (all : List Call) (i j : Nat) :
    (all.map all.eraseDups.idxOf)[i]? = (all.map all.eraseDups.idxOf)[j]? ↔ all[i]? = all[j]? := by
  have hinj : ∀ c ∈ all, ∀ d ∈ all, all.eraseDups.idxOf c = all.eraseDups.idxOf d → c = d :=
    fun c hc d _ => (List.idxOf_inj (List.mem_eraseDups.2 hc)).1
  rw [List.getElem?_map, List.getElem?_map]
  cases hi : all[i]? with
  | none => cases all[j]? <;> simp
  | some c =>
    cases hj : all[j]? with
    | none => simp
    | some d =>
      have hcd := hinj c (List.mem_of_getElem? hi) d (List.mem_of_getElem? hj)
      simpa using ⟨hcd, fun h => by rw [h]⟩

/-- **Interning is exact**, whatever checksums the calls have. Of all calls on a fresh table, the
one that a default counts as included, two get the same index just if their bytes and their tags are
equal; new indices are given in order of first appearance; every index that was given reads back the
bytes of its call, also behind any later calls; and there are as many entries as different pairs. -/
theorem intern_exact (default : Option (List UInt8)) (calls : List Call) :
    let all := defaultCall default ++ calls
    let indices := List.range (defaultCall default).length ++ ((fresh default).internAll calls).1
    (∀ i j : Nat, indices[i]? = indices[j]? ↔ all[i]? = all[j]?) ∧
    indices = all.map all.eraseDups.idxOf ∧
    (∀ later, indices.map ((fresh default).internAll (calls ++ later)).2.get? =
      all.map fun c => some c.1) ∧
    ((fresh default).internAll calls).2.size = all.toFinset.card := by
  intro all indices
  obtain ⟨hindices, hnumbers⟩ := (numbers_fresh default).internAll calls
  have hplaces : indices = all.map all.eraseDups.idxOf := by
    simp only [indices, all, List.map_append, map_defaultCall, hindices]
  refine ⟨fun i j => ?_, hplaces, fun later => ?_, ?_⟩
  · rw [hplaces]
    exact getElem?_places all i j
  · obtain ⟨-, hlater⟩ := (numbers_fresh default).internAll (calls ++ later)
    rw [← List.append_assoc, List.eraseDups_append] at hlater
    rw [hplaces, List.map_map]
    refine List.map_congr_left fun c hc => ?_
    have hmem : c ∈ all.eraseDups := List.mem_eraseDups.2 hc
    have hlt := List.idxOf_lt_length_of_mem hmem
    rw [Function.comp_apply, hlater.get?, List.getElem?_append_left hlt,
      List.getElem?_eq_getElem hlt, List.getElem_idxOf, Option.map_some]
  · have hset : all.eraseDups.toFinset = all.toFinset := by ext c; simp
    rw [hnumbers.size, ← hset, List.toFinset_card_of_nodup hnumbers.nodup]

/-- Different texts do share checksums: these read "plumless" and "buckeroo". -/
example : key [112, 108, 117, 109, 108, 101, 115, 115] 0 =
    key [98, 117, 99, 107, 101, 114, 111, 111] 0 := by decide +kernel

end UniqueTable

end Chiptune
