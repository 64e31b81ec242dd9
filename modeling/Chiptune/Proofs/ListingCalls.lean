import Chiptune.Proofs.Placement
import Chiptune.Proofs.Sources

/-!
# The calls that a source was made of

A call of one value adds one line. A call of many values adds as many lines as they need, all of
them full but the last one (`Listing.Splits`), so that the lines of a sequence of calls come from
one call after the other (`Listing.Call.Writes`).

* `Listing.splits_chunks`: **splitting values over lines loses, reorders and merges nothing**.
* `Source.read_build`: **a rendered source reads back**, for all calls with names that are
  identifiers and comments on one line.
-/

set_option autoImplicit false

namespace Chiptune

namespace Listing

/-! ## Splitting -/

/-- Values split over parts of a size: in their order, each part full but the last one, which is not
empty. -/
inductive Splits {α : Type} (size : Nat) : List α → List (List α) → Prop
  | nil : Splits size [] []
  | last {part : List α} : part ≠ [] → part.length ≤ size → Splits size part [part]
  | full {part rest : List α} {parts : List (List α)} : part.length = size → rest ≠ [] →
      Splits size rest parts → Splits size (part ++ rest) (part :: parts)

/-- **Splitting values loses, reorders and merges nothing.** -/
theorem splits_chunks {α : Type} (n : Nat) (xs : List α) : Splits (n + 1) xs (chunks n xs) := by
  induction xs using chunks.induct n with
  | case1 =>
    rw [chunks]
    exact .nil
  | case2 x rest ih =>
    rw [chunks]
    by_cases hrest : rest.drop n = []
    · have hlength : rest.length ≤ n := List.drop_eq_nil_iff.1 hrest
      rw [hrest, chunks, List.take_of_length_le hlength]
      apply Splits.last
      · exact List.cons_ne_nil x rest
      · show rest.length + 1 ≤ n + 1
        omega
    · have hlength : n < rest.length := by
        by_contra hle
        exact hrest (List.drop_eq_nil_iff.2 (by omega))
      have hsplit : x :: rest = (x :: rest.take n) ++ rest.drop n := by
        rw [List.cons_append, List.take_append_drop]
      conv => arg 2; rw [hsplit]
      apply Splits.full
      · rw [List.length_cons, List.length_take]
        omega
      · exact hrest
      · exact ih

variable {α : Type} {size : Nat} {xs : List α} {parts : List (List α)}

theorem Splits.flatten (h : Splits size xs parts) : parts.flatten = xs := by
  induction h with
  | nil => rfl
  | last => simp
  | full _ _ _ ih => rw [List.flatten_cons, ih]

/-- No part is empty. -/
theorem Splits.ne_nil (h : Splits (size + 1) xs parts) {part : List α} (hp : part ∈ parts) :
    part ≠ [] := by
  induction h with
  | nil => cases hp
  | last hne =>
    rw [List.mem_singleton.1 hp]
    exact hne
  | full hlength _ _ ih =>
    rcases List.mem_cons.1 hp with rfl | hp
    · apply List.ne_nil_of_length_eq_add_one
      exact hlength
    · exact ih hp

theorem chunks_ne_nil {n : Nat} {chunk : List α} (h : chunk ∈ chunks n xs) : chunk ≠ [] :=
  (splits_chunks n xs).ne_nil h

/-! ## Calls -/

namespace Call

/-- Lines that a call stands for. -/
inductive Writes : Call → List Line → Prop
  | segment (s : Segment) (base : UInt16) : Writes (.segment s base) [.segment s base]
  | label (name : String) : Writes (.label name) [.label name]
  | bytes {data : List UInt8} {parts : List (List UInt8)} :
      Splits 16 data parts → Writes (.bytes data) (parts.map .bytes)
  | byte (value : UInt8) : Writes (.byte value) [.bytes [value]]
  | words {data : List Word} {parts : List (List Word)} :
      Splits 8 data parts → Writes (.words data) (parts.map .words)
  | word (value : UInt16) : Writes (.word value) [.words [.value value]]
  | wordLabel (name : String) : Writes (.wordLabel name) [.words [.label name]]
  | align (alignment : Nat) : Writes (.align alignment) [.align alignment]
  | comment (text : String) : Writes (.comment text) [.comment text]
  | blank : Writes .blank [.blank]

theorem writes_lines (call : Call) : call.Writes call.lines := by
  cases call with
  | bytes data => exact .bytes (splits_chunks 15 data)
  | words data => exact .words (splits_chunks 7 data)
  | _ => constructor

/-- Names are identifiers, and a comment is one line of text. -/
def Legible : Call → Prop
  | .label name | .wordLabel name => IsIdentifier name.toList
  | .words data => ∀ name, .label name ∈ data → IsIdentifier name.toList
  | .comment text => '\n' ∉ text.toList
  | _ => True

/-- **The lines of a call can be read** if its names and texts can. -/
theorem Legible.lines {call : Call} (h : call.Legible) : ∀ line ∈ call.lines, line.Legible := by
  intro line hline
  cases call with
  | bytes data =>
    obtain ⟨chunk, hchunk, rfl⟩ := List.mem_map.1 hline
    exact chunks_ne_nil hchunk
  | words data =>
    obtain ⟨chunk, hchunk, rfl⟩ := List.mem_map.1 hline
    refine ⟨chunks_ne_nil hchunk, fun name hname => h name ?_⟩
    rw [← (splits_chunks 7 data).flatten]
    exact List.mem_flatten.2 ⟨chunk, hchunk, hname⟩
  | label name | comment text =>
    rw [List.mem_singleton.1 hline]
    exact h
  | wordLabel name =>
    rw [List.mem_singleton.1 hline]
    refine ⟨List.cons_ne_nil _ _, fun other hother => ?_⟩
    obtain rfl : other = name := by simpa using hother
    exact h
  | byte value | word value =>
    rw [List.mem_singleton.1 hline]
    simp [Line.Legible]
  | segment | align | blank =>
    rw [List.mem_singleton.1 hline]
    trivial

end Call

end Listing

namespace Source

open Listing

/-- **A rendered source reads back.** For calls whose names are identifiers and whose comments are
one line each, and in both dialects, the text is read as what the lines of the builder state; and
these lines come from one call after the other, with all the values of each. -/
theorem read_build (dialect : Dialect) {calls : List Call} (h : ∀ call ∈ calls, call.Legible) :
    read dialect (render dialect (build calls)) =
        some ((build calls).filterMap (Line.statement dialect)) ∧
      ∃ parts, List.Forall₂ Call.Writes calls parts ∧ build calls = parts.flatten := by
  constructor
  · apply read_render
    intro line hline
    obtain ⟨call, hcall, hline⟩ := List.mem_flatMap.1 hline
    exact (h call hcall).lines line hline
  · refine ⟨calls.map Call.lines, ?_, List.flatMap_def⟩
    rw [List.forall₂_map_right_iff, List.forall₂_same]
    exact fun call _ => call.writes_lines

/-- Twenty bytes behind a label, and its address behind a comment. -/
theorem read_build_label :
    read .asm6 (render .asm6 (build [.segment .music 0x8000, .label "env0",
      .bytes (List.replicate 20 7), .comment "end", .words [.label "env0", .value 0x1234]])) =
    some [.base 0x8000, .label "env0", .bytes (List.replicate 16 7), .bytes (List.replicate 4 7),
      .words [.label "env0", .value 0x1234]] := by
  have hlegible : ∀ call ∈ [Call.segment .music 0x8000, .label "env0",
      .bytes (List.replicate 20 7), .comment "end", .words [.label "env0", .value 0x1234]],
      call.Legible := by
    simp only [List.forall_mem_cons, Call.Legible]
    refine ⟨trivial, by decide, trivial, by decide, ?_, by simp⟩
    rintro name hname
    obtain rfl : name = "env0" := by simpa using hname
    decide
  rw [(read_build .asm6 hlegible).1]
  decide +kernel

end Source

end Chiptune
