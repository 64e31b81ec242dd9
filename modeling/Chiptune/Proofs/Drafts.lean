import Chiptune.Proofs.Refusals
import Chiptune.Proofs.Resolution

/-!
# Drafts of an image

Lines are laid out one by one, and the words that name labels stay empty until all addresses are
known. What a draft remembers of its lines (`Draft.Tracks`) is enough to fill every word in, where
it was left empty.

* `Draft.Tracks.addLine`, `Draft.tracks_lines`: **each line keeps this**, and so do all lines.
* `assemble_refuses`: **a listing that defines every name that it uses is assembled**, or refused
  because it does not fit the address space.
-/

set_option autoImplicit false

namespace Chiptune.Image

namespace Draft

/-- Number of bytes of a segment. -/
def size (d : Draft) : Segment → Nat
  | .music => d.music.bytes.size
  | .samples => (d.samples.map (·.bytes.size)).getD 0

/-- **What a draft remembers of its lines**: every label with an address, and every empty word with
the name that belongs there and a place inside of its segment. -/
structure Tracks (d : Draft) (lines : List Line) : Prop where
  labels : ∀ name, .label name ∈ lines → (d.labels.lookup name).isSome = true
  holes : ∀ hole ∈ d.holes, ∃ ws, .words ws ∈ lines ∧ .label hole.label ∈ ws
  within : ∀ hole ∈ d.holes, hole.offset + 2 ≤ d.size hole.segment

variable {d d' : Draft} {lines : List Line}

/-- Bytes are added to the current segment. -/
theorem size_append (d : Draft) (bytes : List UInt8) (s : Segment) :
    (d.setBlock (d.block.append bytes)).size s =
      d.size s + if s = d.current then bytes.length else 0 := by
  cases hcurrent : d.current with
  | music =>
    cases s <;> simp [setBlock, block, hcurrent, size, Block.append, size_appendList]
  | samples =>
    cases s with
    | music => simp [setBlock, hcurrent, size]
    | samples =>
      cases hsamples : d.samples <;>
        simp [setBlock, block, hcurrent, size, hsamples, Block.append, size_appendList]

/-- A segment that is opened has no bytes yet. -/
theorem size_enter (d : Draft) (segment : Segment) (base : UInt16) (s : Segment) :
    (d.enter segment base).size s = d.size s := by
  unfold enter
  split
  · rename_i hnone
    cases s <;> simp [size, hnone]
  · cases s <;> rfl

theorem labels_append (d : Draft) (bytes : List UInt8) :
    (d.setBlock (d.block.append bytes)).labels = d.labels ∧
      (d.setBlock (d.block.append bytes)).holes = d.holes ∧
      (d.setBlock (d.block.append bytes)).current = d.current := by
  unfold setBlock
  cases d.current <;> exact ⟨rfl, rfl, rfl⟩

theorem Tracks.mono (h : d.Tracks lines) {more : List Line}
    (hlabels : ∀ name, .label name ∈ more → .label name ∈ lines)
    (hwords : ∀ line ∈ lines, line ∈ more) : d.Tracks more where
  labels name hname := h.labels name (hlabels name hname)
  holes hole hmem := by
    obtain ⟨ws, hws, hname⟩ := h.holes hole hmem
    exact ⟨ws, hwords _ hws, hname⟩
  within := h.within

/-- Bytes at the end of a segment leave the labels and the empty words where they are. -/
theorem Tracks.append (h : d.Tracks lines) (bytes : List UInt8) :
    (d.setBlock (d.block.append bytes)).Tracks lines := by
  obtain ⟨hlabels, hholes, -⟩ := d.labels_append bytes
  constructor
  · rw [hlabels]
    exact h.labels
  · rw [hholes]
    exact h.holes
  · rw [hholes]
    intro hole hmem
    rw [size_append]
    exact Nat.le_trans (h.within hole hmem) (Nat.le_add_right _ _)

/-- A word that names a label leaves two bytes empty. -/
theorem Tracks.addWord (h : d.Tracks lines) {w : Word} {ws : List Word} (hws : .words ws ∈ lines)
    (hw : w ∈ ws) : (d.addWord w).Tracks lines := by
  cases w with
  | value v => exact h.append _
  | label name =>
    have happend := h.append [0, 0]
    constructor
    · exact happend.labels
    · intro hole hmem
      rcases List.mem_cons.1 hmem with rfl | hmem
      · exact ⟨ws, hws, hw⟩
      · exact h.holes hole hmem
    · intro hole hmem
      rcases List.mem_cons.1 hmem with rfl | hmem
      · have hsize := d.size_append [0, 0] d.current
        rw [if_pos rfl] at hsize
        have hblock : d.block.bytes.size = d.size d.current := by
          unfold block size
          cases d.current with
          | music => rfl
          | samples => cases d.samples <;> rfl
        show d.block.bytes.size + 2 ≤ (d.setBlock (d.block.append [0, 0])).size d.current
        rw [hsize, hblock]
        exact Nat.le_refl _
      · exact happend.within hole (by rwa [(d.labels_append _).2.1])

theorem Tracks.addWords (h : d.Tracks lines) {data ws : List Word} (hws : .words ws ∈ lines)
    (hdata : ∀ w ∈ data, w ∈ ws) : (data.foldl Draft.addWord d).Tracks lines := by
  induction data generalizing d with
  | nil => exact h
  | cons w rest ih =>
    exact ih (h.addWord hws (hdata w List.mem_cons_self)) fun x hx =>
      hdata x (List.mem_cons_of_mem _ hx)

theorem tracks_start (base : UInt16) : Tracks { music := { base } } [] :=
  ⟨fun _ h => absurd h List.not_mem_nil, fun _ h => absurd h List.not_mem_nil,
    fun _ h => absurd h List.not_mem_nil⟩

/-- **A line that is laid out is remembered with the lines before it.** -/
theorem Tracks.addLine (h : d.Tracks lines) {line : Line} (hd : d.addLine line = .ok d') :
    d'.Tracks (lines ++ [line]) := by
  have hwords : ∀ other ∈ lines, other ∈ lines ++ [line] := fun _ => List.mem_append_left _
  have hplain : (∀ name, line ≠ .label name) → d.Tracks (lines ++ [line]) := by
    intro hne
    refine h.mono (fun name hname => ?_) hwords
    rcases List.mem_append.1 hname with hname | hname
    · exact hname
    · exact absurd (List.mem_singleton.1 hname).symm (hne name)
  cases line with
  | segment segment base =>
    cases hd
    have hp := hplain (by simp)
    have henter : (d.enter segment base).labels = d.labels ∧
        (d.enter segment base).holes = d.holes := by
      unfold enter
      split <;> exact ⟨rfl, rfl⟩
    constructor
    · rw [henter.1]
      exact hp.labels
    · rw [henter.2]
      exact hp.holes
    · rw [henter.2]
      intro hole hmem
      rw [size_enter]
      exact hp.within hole hmem
  | comment text =>
    cases hd
    exact hplain (by simp)
  | blank =>
    cases hd
    exact hplain (by simp)
  | label name =>
    simp only [Draft.addLine] at hd
    split at hd
    · cases hd
    obtain rfl := check_ok hd
    refine ⟨fun other hother => ?_, fun hole hmem => ?_, h.within⟩
    · rw [List.lookup_cons]
      split
      · rfl
      · rename_i hne
        rcases List.mem_append.1 hother with hother | hother
        · exact h.labels other hother
        · cases List.mem_singleton.1 hother
          simp at hne
    · obtain ⟨ws, hws, hname⟩ := h.holes hole hmem
      exact ⟨ws, hwords _ hws, hname⟩
  | bytes data =>
    obtain rfl := check_ok hd
    exact (hplain (by simp)).append data
  | words data =>
    obtain rfl := check_ok hd
    exact (hplain (by simp)).addWords (List.mem_append_right _ (List.mem_singleton.2 rfl))
      fun _ hw => hw
  | align alignment =>
    simp only [Draft.addLine] at hd
    split at hd
    · cases hd
    split at hd
    · cases hd
    · cases hd
      exact (hplain (by simp)).append _

/-- **All lines that are laid out are remembered.** -/
theorem tracks_lines {more : List Line} (h : d.Tracks lines)
    (hd : more.foldlM Draft.addLine d = .ok d') : d'.Tracks (lines ++ more) := by
  induction more generalizing d lines with
  | nil =>
    cases hd
    simpa using h
  | cons line rest ih =>
    rw [List.foldlM_cons] at hd
    obtain ⟨u, hu, hd⟩ := bind_ok hd
    have hrest := ih (h.addLine hu) hd
    rwa [List.append_assoc] at hrest

/-- A line is laid out unless it goes past the address space. -/
theorem addLine_refuses (d : Draft) {line : Line}
    (halign : ∀ n, line = .align n → max 1 n % 0x100000000 ≠ 0) :
    Refuses False (d.addLine line) := by
  have hcheck : ∀ d : Draft, Refuses False d.check := by
    intro d
    unfold check
    split
    · exact .error rfl
    · exact .ok _
  cases line with
  | segment segment base => exact .ok _
  | comment text => exact .ok _
  | blank => exact .ok _
  | label name =>
    simp only [Draft.addLine]
    split
    · exact .error rfl
    · exact hcheck _
  | bytes data => exact hcheck _
  | words data => exact hcheck _
  | align alignment =>
    simp only [Draft.addLine, if_neg (halign alignment rfl)]
    split
    · exact .error rfl
    · exact .ok _

end Draft

/-- **A listing that defines every name that it uses is assembled**, or it does not fit the address
space. -/
theorem assemble_refuses {lines : List Line} (hclosed : Listing.IsClosed lines)
    (halign : ∀ n, .align n ∈ lines → max 1 n % 0x100000000 ≠ 0) (base : UInt16) :
    Refuses False (assemble lines base) := by
  have hlines : Refuses False (lines.foldlM Draft.addLine { music := { base } }) :=
    .foldlM (fun line hline d => d.addLine_refuses fun n hn => halign n (hn ▸ hline)) _
  refine hlines.bind fun d hd => ?_
  have htracks := Draft.tracks_lines (Draft.tracks_start base) hd
  rw [List.nil_append] at htracks
  obtain ⟨filled, hfilled⟩ := @fill_succeeds (Std.HashMap.ofList d.labels.reverse) d.holes.reverse
    (fun hole hmem => by
      obtain ⟨ws, hws, hname⟩ := htracks.holes hole (List.mem_reverse.1 hmem)
      rw [getElem?_ofList_reverse]
      exact htracks.labels _ (hclosed ws hws _ hname)) d
  simp only [hfilled]
  exact .ok _

end Chiptune.Image
