import Chiptune.Proofs.ExhaustiveSearch
import Chiptune.Proofs.Resolution
import Chiptune.Proofs.StreamGrammar

/-!
# References are calls without calls in them

A driver with a single return address can play a reference only if what it plays calls for no other
reference, and if it can tell where the passage ends. `Reference.IsCall` says what this takes of the
stream: the passage is made of whole instructions that lie behind the reference, without labels,
addresses and parts of other references.

* `Writes.founded`: every reference has a passage in the output before it, kept by every step.
* `compress_calls`: **every reference of a compressed stream is such a call**.
-/

set_option autoImplicit false

namespace Chiptune

namespace Reference

/-- A reference with a count and an address stands at an offset of a stream. -/
def StandsAt (k : Kernel) (stream : List Token) (p : Nat) (count : UInt8) (address : Target) :
    Prop :=
  ∃ opcode, k.opcode .reference = some opcode ∧ stream[p]? = some (.opcode opcode) ∧
    stream[p + 1]? = some (.byte count) ∧ stream[p + 2]? = some (.address address)

/-- What a reference with a count and a target plays. -/
def played (stream : List Token) (count : UInt8) (target : Nat) : List Token :=
  replay count.toNat 0 (stream.drop target)

/-- The reference at an offset can be played by a driver with a single return address. -/
structure IsCall (k : Kernel) (minNotes : Nat) (stream : List Token) (p : Nat) (count : UInt8)
    (target : Nat) : Prop where
  /-- An instruction of the stream begins at the target. -/
  before : Complete k (stream.take target)
  starts : stream[target]?.any Token.startsInstruction = true
  least : max minNotes 1 ≤ count.toNat
  most : count.toNat ≤ 255
  /-- What is played are whole instructions of the stream. -/
  stands : played stream count target <+: stream.drop target
  complete : Complete k (played stream count target)
  closed : AtBoundary (stream.drop (target + (played stream count target).length))
  /-- As many of them as counted take up rows, and the last one does. -/
  rows : noteCount (played stream count target) = count.toNat
  ends : EndsWithNote (played stream count target)
  /-- They are over where the reference begins. -/
  behind : target + (played stream count target).length ≤ p
  noLabel : ∀ id, .label id ∉ played stream count target
  noAddress : ∀ address, .address address ∉ played stream count target
  /-- No token of them belongs to a reference. -/
  apart : ∀ q count' address, StandsAt k stream q count' address →
    q + 3 ≤ target ∨ target + (played stream count target).length ≤ q

end Reference

/-- A stretch that begins with an instruction is at a boundary. -/
theorem atBoundary_of_starts {tokens : List Token}
    (h : tokens.head?.any Token.startsInstruction = true) : AtBoundary tokens := by
  intro t ht
  rw [Option.mem_def.1 ht] at h
  exact .inl (by simpa using h)

namespace Compressor

open Reference

variable {k : Kernel} {opcode : UInt8} {minNotes p : Nat} {count : UInt8}
  {stream source : List Token} {out out' : Output} {m : Match}

/-- The reference at an offset stands for a passage that begins with an instruction and is over at
this offset. -/
structure Founded (k : Kernel) (minNotes : Nat) (stream : List Token) (p : Nat) (count : UInt8)
    (target : Nat) (passage : List Token) : Prop where
  replays : Replays k stream count.toNat target passage
  starts : passage.head?.any Token.startsInstruction = true
  least : minNotes ≤ count.toNat
  behind : target + passage.length ≤ p

theorem Founded.append {target : Nat} {passage : List Token}
    (h : Founded k minNotes stream p count target passage) (more : List Token) :
    Founded k minNotes (stream ++ more) p count target passage :=
  { h with replays := h.replays.append more }

/-- Every reference of a stream stands for a passage before it. -/
def AllFounded (k : Kernel) (minNotes : Nat) (stream : List Token) : Prop :=
  ∀ p count target, StandsAt k stream p count (.offset target) →
    ∃ passage, Founded k minNotes stream p count target.toNat passage

/-- A token that is no address of the stream completes no reference. -/
theorem AllFounded.copy (h : AllFounded k minNotes stream) {token : Token}
    (ht : ∀ o, token ≠ .address (.offset o)) : AllFounded k minNotes (stream ++ [token]) := by
  rintro p count target ⟨opcode, hk, hopcode, hcount, htarget⟩
  have hlt : p + 2 < stream.length := by
    apply Nat.lt_of_not_le
    intro hle
    rw [List.getElem?_append_right hle] at htarget
    exact ht target (List.mem_singleton.1 (List.mem_of_getElem? htarget)).symm
  rw [List.getElem?_append_left (by omega)] at hopcode hcount htarget
  obtain ⟨passage, hpassage⟩ := h p count target ⟨opcode, hk, hopcode, hcount, htarget⟩
  exact ⟨passage, hpassage.append _⟩

/-- The tokens of a reference complete no other one. -/
theorem standsAt_append_tokens {n t : Nat} {target : UInt32}
    (h : StandsAt k (stream ++ Reference.tokens opcode n t) p count (.offset target)) :
    StandsAt k stream p count (.offset target) ∨
      p = stream.length ∧ count = UInt8.ofNat n ∧ target = UInt32.ofNat t := by
  obtain ⟨opcode', hk, hopcode, hcount, htarget⟩ := h
  by_cases hlt : p + 2 < stream.length
  · rw [List.getElem?_append_left (by omega)] at hopcode hcount htarget
    exact .inl ⟨opcode', hk, hopcode, hcount, htarget⟩
  · refine .inr ?_
    rw [List.getElem?_append_right (by omega)] at htarget
    -- an address is only the last of the three tokens
    obtain ⟨i, hi⟩ : ∃ i, p + 2 = stream.length + i := ⟨p + 2 - stream.length, by omega⟩
    rw [hi, Nat.add_sub_cancel_left] at htarget
    match i with
    | 0 => cases htarget
    | 1 => cases htarget
    | 2 =>
      cases htarget
      obtain rfl : p = stream.length := by omega
      rw [List.getElem?_append_right (by omega), Nat.add_sub_cancel_left] at hcount
      cases hcount
      exact ⟨rfl, rfl, rfl⟩
    | i + 3 => cases htarget

theorem AllFounded.refer {n t : Nat} {passage : List Token} (h : AllFounded k minNotes stream)
    (hsize : (stream ++ Reference.tokens opcode n t).length ≤ UInt32.size)
    (hnew : Founded k minNotes (stream ++ Reference.tokens opcode n t) stream.length
      (UInt8.ofNat n) t passage) :
    AllFounded k minNotes (stream ++ Reference.tokens opcode n t) := by
  intro p count target hp
  rcases standsAt_append_tokens hp with hp | ⟨rfl, rfl, rfl⟩
  · obtain ⟨passage, hpassage⟩ := h p count target hp
    exact ⟨passage, hpassage.append _⟩
  · rw [hnew.replays.toNat_target hsize]
    exact ⟨passage, hnew⟩

/-- A match in an output of complete instructions founds the reference that is written for it. -/
theorem founded_refer (hstart : source.head?.any Token.startsInstruction = true)
    (hm : Agrees out.cells minNotes m.target {} source m m.length) (hout : Complete k out.tokens)
    (hsource : Complete k source) :
    Founded k minNotes (out.tokens ++ Reference.tokens opcode m.notes m.target) out.tokens.length
      (UInt8.ofNat m.notes) m.target (source.take m.length) := by
  have hcount : (UInt8.ofNat m.notes).toNat = m.notes :=
    UInt8.toNat_ofNat_of_lt' (Nat.lt_of_le_of_lt hm.notes_le (by decide))
  have hpos := hm.pos
  have hle := hm.le
  refine ⟨?_, ?_, ?_, ?_⟩
  · rw [hcount]
    exact hm.replays hsource hstart hout
  · rwa [List.head?_take, if_neg (by omega)]
  · rw [hcount]
    exact hm.minNotes_le
  · -- the last token of the passage stands in the output
    have hlast := hm.same (m.length - 1) (by omega)
    rw [List.getElem?_eq_getElem (by omega)] at hlast
    obtain ⟨cell, hcell, -⟩ := Option.map_eq_some_iff.1 hlast
    obtain ⟨hlt, -⟩ := Array.getElem?_eq_some_iff.1 hcell
    rw [List.length_take, Nat.min_eq_left hle, Output.tokens, List.length_map, Array.length_toList]
    simp only at hlt
    omega

/-- The output only grows. -/
theorem Writes.length_le (h : Writes opcode minNotes out source out') :
    out.tokens.length ≤ out'.tokens.length := by
  induction h with
  | done out => exact Nat.le_refl _
  | copies _ _ ih =>
    rw [tokens_copy, List.length_append] at ih
    exact Nat.le_trans (Nat.le_add_right _ _) ih
  | refers _ _ ih =>
    rw [tokens_refer, List.length_append] at ih
    exact Nat.le_trans (Nat.le_add_right _ _) ih

/-- **Every reference that the compressor writes stands for a passage before it**, in an output
whose positions are numbers of 32 bits. -/
theorem Writes.founded (hk : k.opcode .reference = some opcode)
    (h : Writes opcode minNotes out source out') (hsize : out'.tokens.length ≤ UInt32.size)
    (hc : Complete k (out.tokens ++ source)) (hl : ∀ o, .address (.offset o) ∉ source)
    (hf : AllFounded k minNotes out.tokens) :
    Complete k out'.tokens ∧ AllFounded k minNotes out'.tokens := by
  induction h with
  | done out => exact ⟨by simpa using hc, hf⟩
  | @copies out out' token rest _ _ ih =>
    refine ih hsize ?_ (fun o ho => hl o (List.mem_cons_of_mem _ ho)) ?_
    · simpa using hc
    · rw [tokens_copy]
      exact hf.copy fun o ho => hl o (ho ▸ List.mem_cons_self)
  | @refers out out' source m hfind hwrites ih =>
    obtain ⟨hstart, hm⟩ := find_agrees hfind
    have hsplit := hc.split (n := out.tokens.length) (by simpa using atBoundary_of_starts hstart)
    rw [List.take_left, List.drop_left] at hsplit
    refine ih hsize ?_ (fun o ho => hl o (List.mem_of_mem_drop ho)) ?_
    · rw [tokens_refer, List.append_assoc]
      exact hsplit.1.append (complete_reference hk _ _ (hsplit.2.split hm.boundary).2)
    · have hlength := Nat.le_trans hwrites.length_le hsize
      rw [tokens_refer] at hlength ⊢
      exact hf.refer hlength (founded_refer hstart hm hsplit.1 hsplit.2)

end Compressor

namespace Reference

open Compressor

variable {k : Kernel} {minNotes p target : Nat} {count : UInt8} {stream passage : List Token}

/-- A passage and a reference have no token in common: the passage has no address, and a boundary
follows it. -/
theorem apart_of_replays (h : Replays k stream count.toNat target passage) {q : Nat}
    {count' : UInt8} {address : Target} (hq : StandsAt k stream q count' address) :
    q + 3 ≤ target ∨ target + passage.length ≤ q := by
  obtain ⟨t, after, hdrop, ht⟩ := h.here
  obtain ⟨-, -, -, hcount, haddress⟩ := hq
  have hstands : ∀ i, stream[target + i]? = (passage ++ t :: after)[i]? := by
    intro i
    rw [← hdrop, List.getElem?_drop]
  apply Classical.byContradiction
  intro hnot
  rw [not_or, Nat.not_le, Nat.not_le] at hnot
  obtain ⟨i, hi⟩ : ∃ i, q + 2 = target + i := ⟨q + 2 - target, by omega⟩
  by_cases hlt : i < passage.length
  · rw [hi, hstands, List.getElem?_append_left hlt] at haddress
    have := h.replayable _ (List.mem_of_getElem? haddress)
    cases this
  · have hbehind : (passage ++ t :: after)[passage.length]? = some t := by simp
    rw [← hstands] at hbehind
    -- the boundary is the count or the address of the reference
    rcases Nat.eq_or_lt_of_le (Nat.le_of_not_lt hlt) with heq | hgt
    · rw [heq, ← hi, haddress] at hbehind
      cases hbehind
      simp [Token.IsBoundary, Token.startsInstruction, Token.isLabel] at ht
    · rw [show target + passage.length = q + 1 by omega, hcount] at hbehind
      cases hbehind
      simp [Token.IsBoundary, Token.startsInstruction, Token.isLabel] at ht

/-- **A reference with a passage before it is a call.** -/
theorem isCall_of_founded (hc : Complete k stream)
    (h : Founded k (max 1 minNotes) stream p count target passage) :
    IsCall k minNotes stream p count target := by
  obtain ⟨t, after, hdrop, ht⟩ := h.replays.here
  have hplayed : played stream count target = passage := h.replays.replay_eq
  have hstarts : (stream.drop target).head?.any Token.startsInstruction = true := by
    rw [hdrop, List.head?_append]
    cases hp : passage.head? with
    | none =>
      have := h.starts
      rw [hp] at this
      cases this
    | some u =>
      rw [Option.some_or, ← hp]
      exact h.starts
  have hreplayable := h.replays.replayable
  constructor
  case before => exact (hc.split (atBoundary_of_starts hstarts)).1
  case starts => rwa [← List.head?_drop]
  case least =>
    rw [Nat.max_comm]
    exact h.least
  case most => exact h.replays.count_le
  all_goals rw [hplayed]
  case stands => exact ⟨_, hdrop.symm⟩
  case complete => exact h.replays.complete
  case closed =>
    rw [← List.drop_drop, hdrop, List.drop_left]
    intro u hu
    cases hu
    exact ht
  case rows => exact h.replays.count_eq
  case ends => exact h.replays.endsWithNote
  case behind => exact h.behind
  case noLabel =>
    intro id hid
    cases hreplayable _ hid
  case noAddress =>
    intro address haddress
    cases hreplayable _ haddress
  case apart =>
    intro q count' address hq
    exact apart_of_replays h.replays hq

end Reference

open Compressor Reference in
/-- The references of a compressed stream are no notes, so its tokens say which instructions take up
rows if those of the source do. -/
theorem tagged_compress {k : Kernel} {stream : List Token} (h : Complete k stream)
    (htag : Player.Tagged k stream) (minNotes : Nat) :
    Player.Tagged k (compress k minNotes stream) := by
  obtain ⟨opcode, hk⟩ := k.opcode_reference
  intro token htoken lead hlead
  rcases (compress_packs hk h minNotes).mem_cases htoken with hsource | ⟨count, target, -, -, hmem⟩
  · exact htag token hsource lead hlead
  · simp only [Reference.tokens, List.mem_cons, List.not_mem_nil, or_false] at hmem
    rcases hmem with rfl | rfl | rfl
    · cases hlead
      rw [Kernel.decode_opcode hk]
      rfl
    · cases hlead
    · cases hlead

open Compressor Reference in
/-- **Every reference of a compressed stream can be played by a driver with a single return
address**, and a driver that counts rows by the bytes of the passage stops where it ends. The
positions of the compressed stream have to be numbers of 32 bits. -/
theorem compress_calls {k : Kernel} {stream : List Token} (h : Complete k stream)
    (hl : ∀ o, .address (.offset o) ∉ stream) (minNotes : Nat)
    (hsize : (compress k minNotes stream).length ≤ UInt32.size) {p : Nat} {count : UInt8}
    {target : UInt32} (hp : StandsAt k (compress k minNotes stream) p count (.offset target)) :
    IsCall k minNotes (compress k minNotes stream) p count target.toNat ∧
      (Player.Tagged k stream → ∀ locate, k.rowsIn (Player.encodedAll locate
        (played (compress k minNotes stream) count target.toNat)) = count.toNat) := by
  obtain ⟨opcode, out, hk, hwrites, heq⟩ := compress_writes k minNotes stream
  have hnone : AllFounded k (max 1 minNotes) (Output.tokens {}) := by
    rintro p count target ⟨_, _, hopcode, -⟩
    cases hopcode
  rw [heq] at hsize
  obtain ⟨hcomplete, hfounded⟩ := hwrites.founded hk hsize h hl hnone
  rw [← heq] at hcomplete hfounded
  obtain ⟨passage, hpassage⟩ := hfounded p count target hp
  have hcall := isCall_of_founded hcomplete hpassage
  refine ⟨hcall, fun htag locate => ?_⟩
  rw [hcall.complete.rowsIn_encodedAll _ locate, hcall.rows]
  intro token htoken
  have hmem := List.mem_of_mem_drop (hcall.stands.subset htoken)
  exact tagged_compress h htag minNotes token hmem

open Reference in
/-- The second time the bar of `repeatedBar` is a reference, played by going back to its start. -/
theorem compress_calls_repeatedBar :
    (Complete .extended repeatedBar ∧ ∀ o, .address (.offset o) ∉ repeatedBar) ∧
      StandsAt .extended (compress .extended 4 repeatedBar) 8 4 (.offset 0) ∧
      IsCall .extended 4 (compress .extended 4 repeatedBar) 8 4 0 := by
  have hi : ∀ i ∈ ([.op .volume [9] [], .note (18 + noteBias) false, .op .extendedNote [90] [],
      .note (20 + noteBias) false, .note (22 + noteBias) false, .label 7, .op .volume [9] [],
      .note (18 + noteBias) false, .op .extendedNote [90] [], .note (20 + noteBias) false,
      .note (22 + noteBias) false] : List Instruction), i.HasOperands := by decide
  have h : Complete .extended repeatedBar := Complete.encodeAll hi rfl
  have hl : ∀ o, .address (.offset o) ∉ repeatedBar := by simp [repeatedBar]
  have hp : StandsAt .extended (compress .extended 4 repeatedBar) 8 4 (.offset 0) := by
    rw [compress_repeatedBar]
    exact ⟨0x46, rfl, rfl, rfl, rfl⟩
  have hsize : (compress .extended 4 repeatedBar).length ≤ UInt32.size := by
    rw [compress_repeatedBar]
    decide
  exact ⟨⟨h, hl⟩, hp, (compress_calls h hl 4 hsize hp).1⟩

end Chiptune
