import Chiptune.Channel
import Chiptune.Label
import Std.Data.String.ToNat

/-!
# Labels have different names

The text of a label tells which label it is (`Label.text_inj`), so that no two things that are laid
out share an address by their names alone. A name is read from its front: its first letters give its
kind, a number ends before the first character that is no digit, and a channel before the first
underscore, which no short name of a channel holds.

* `Label.text_eq_iff`: **two labels have the same text just if they mark the same thing**, on the
  same channel.
-/

set_option autoImplicit false

namespace Chiptune

namespace Label

/-- The label belongs to a channel, if it names one. -/
def Named : Label → Prop
  | stream _ channel | streamLoop _ channel | streamRef _ channel _ =>
    ∃ c : Channel, c.shortName = channel
  | _ => True

/-- Two splits of a text at its first character without a property are the same. -/
theorem split_eq {p : Char → Bool} {a a' b b' : List Char} (ha : ∀ c ∈ a, p c = true)
    (ha' : ∀ c ∈ a', p c = true) (hb : ∀ c ∈ b.head?, p c = false)
    (hb' : ∀ c ∈ b'.head?, p c = false) (h : a ++ b = a' ++ b') : a = a' ∧ b = b' := by
  have front : ∀ {a b : List Char}, (∀ c ∈ a, p c = true) → (∀ c ∈ b.head?, p c = false) →
      (a ++ b).takeWhile p = a := by
    intro a b ha hb
    rw [List.takeWhile_append_of_pos ha]
    cases b with
    | nil => simp
    | cons c b => simp [hb c rfl]
  have heq : a = a' := by rw [← front ha hb, h, front ha' hb']
  subst heq
  exact ⟨rfl, List.append_cancel_left h⟩

theorem underscore_notMem_shortName (c : Channel) : '_' ∉ c.shortName.toList := by
  cases c <;> decide

theorem digits_inj {m n : Nat} (h : Nat.toDigits 10 m = Nat.toDigits 10 n) : m = n :=
  Nat.repr_injective (String.toList_injective (by simpa using h))

/-- Behind the word that all labels of a song begin with, the number ends before the first character
that is no digit, and the channel before the next underscore. -/
theorem stream_eq {m n : Nat} {c c' : Channel} {b b' : List Char} (hb : ∀ x ∈ b.head?, x = '_')
    (hb' : ∀ x ∈ b'.head?, x = '_')
    (h : Nat.toDigits 10 m ++ '_' :: (c.shortName.toList ++ b) =
      Nat.toDigits 10 n ++ '_' :: (c'.shortName.toList ++ b')) :
    m = n ∧ c.shortName = c'.shortName ∧ b = b' := by
  have digits : ∀ n : Nat, ∀ x ∈ Nat.toDigits 10 n, x.isDigit = true :=
    fun n x hx => Nat.isDigit_of_mem_toDigits (by decide) (by decide) hx
  have plain : ∀ c : Channel, ∀ x ∈ c.shortName.toList, (x != '_') = true := by
    intro c x hx
    rw [bne_iff_ne]
    rintro rfl
    exact underscore_notMem_shortName c hx
  obtain ⟨hnumber, hrest⟩ := split_eq (digits m) (digits n) (by simp) (by simp) h
  obtain ⟨hchannel, hrest⟩ := split_eq (plain c) (plain c') (by simpa using hb) (by simpa using hb')
    (List.cons.inj hrest).2
  exact ⟨digits_inj hnumber, String.toList_injective hchannel, hrest⟩

/-- Characters of a name. -/
theorem toList_name (l : Label) : l.name.toList = match l with
    | header => "music_data".toList
    | instruments => "instruments".toList
    | extendedInstruments => "extended_instruments".toList
    | sampleTable => "samples".toList
    | envelope n => "env".toList ++ Nat.toDigits 10 n
    | groove n => "groove".toList ++ Nat.toDigits 10 n
    | fdsWave n => "fds_wave".toList ++ Nat.toDigits 10 n
    | fdsMod n => "fds_mod".toList ++ Nat.toDigits 10 n
    | n163Wave n => "n163_wave".toList ++ Nat.toDigits 10 n
    | sample n => "dpcm".toList ++ Nat.toDigits 10 n
    | song n => "song".toList ++ Nat.toDigits 10 n
    | stream n c => "song".toList ++ (Nat.toDigits 10 n ++ '_' :: (c.toList ++ []))
    | streamLoop n c =>
      "song".toList ++ (Nat.toDigits 10 n ++ '_' :: (c.toList ++ "_loop".toList))
    | streamRef n c o =>
      "song".toList ++
        (Nat.toDigits 10 n ++ '_' :: (c.toList ++ ("_ref".toList ++ Nat.toDigits 10 o))) := by
  have text : ∀ s : String, toString s = s := fun _ => rfl
  cases l <;> simp [name, text]

/-- **A label is known by its name.** -/
theorem name_inj {a b : Label} (ha : a.Named) (hb : b.Named) (h : a.name = b.name) : a = b := by
  have hl := congrArg String.toList h
  rw [toList_name, toList_name] at hl
  cases a <;> cases b
  case stream.stream | streamLoop.streamLoop =>
    obtain ⟨c, rfl⟩ := ha
    obtain ⟨c', rfl⟩ := hb
    obtain ⟨rfl, hc, -⟩ := stream_eq (by simp) (by simp) (List.append_cancel_left hl)
    rw [hc]
  case streamRef.streamRef =>
    obtain ⟨c, rfl⟩ := ha
    obtain ⟨c', rfl⟩ := hb
    obtain ⟨rfl, hc, hrest⟩ := stream_eq (by simp) (by simp) (List.append_cancel_left hl)
    rw [hc, digits_inj (List.append_cancel_left hrest)]
  case stream.streamLoop | stream.streamRef | streamLoop.stream | streamLoop.streamRef |
      streamRef.stream | streamRef.streamLoop =>
    obtain ⟨c, rfl⟩ := ha
    obtain ⟨c', rfl⟩ := hb
    obtain ⟨-, -, hrest⟩ := stream_eq (by simp) (by simp) (List.append_cancel_left hl)
    simp at hrest
  case song.stream | song.streamLoop | song.streamRef | stream.song | streamLoop.song |
      streamRef.song =>
    -- a number holds no underscore
    have hmem := congrArg ('_' ∈ ·) (List.append_cancel_left hl)
    simp at hmem
  all_goals simp at hl ⊢
  all_goals exact digits_inj hl

/-- **Labels of one stem that have the same text are the same.** -/
theorem text_inj {stem : String} {a b : Label} (ha : a.Named) (hb : b.Named)
    (h : a.text stem = b.text stem) : a = b := by
  have hl := congrArg String.toList h
  simp only [text, String.toList_append] at hl
  exact name_inj ha hb (String.toList_injective (List.append_cancel_left hl))

/-- The label belongs to a channel, or to none. -/
def IsOf : Label → Option Channel → Prop
  | stream _ name, c | streamLoop _ name, c | streamRef _ name _, c =>
    c.map Channel.shortName = some name
  | _, c => c = none

theorem IsOf.named {l : Label} {c : Option Channel} (h : l.IsOf c) : l.Named := by
  cases l
  case stream | streamLoop | streamRef =>
    obtain ⟨channel, -, hname⟩ := Option.map_eq_some_iff.1 h
    exact ⟨channel, hname⟩
  all_goals trivial

/-- A channel is found by its short name. -/
theorem find?_shortName (c : Channel) :
    Channel.all.find? (fun other => other.shortName == c.shortName) = some c := by
  cases c <;> rfl

theorem shortName_inj {c d : Channel} (h : c.shortName = d.shortName) : c = d := by
  have hc := find?_shortName c
  rw [h, find?_shortName d] at hc
  exact (Option.some.inj hc).symm

/-- A label belongs to one channel at most. -/
theorem IsOf.unique {l : Label} {c d : Option Channel} (hc : l.IsOf c) (hd : l.IsOf d) : c = d := by
  cases l
  case stream | streamLoop | streamRef =>
    exact Option.map_injective (fun _ _ => shortName_inj) (Eq.trans hc (Eq.symm hd))
  all_goals exact Eq.trans hc (Eq.symm hd)

/-- **Two labels of one stem have the same text just if they are of the same kind and mark the same
thing**: their numbers are equal, and so are their channels. -/
theorem text_eq_iff {stem : String} {a b : Label} {c d : Option Channel} (ha : a.IsOf c)
    (hb : b.IsOf d) : a.text stem = b.text stem ↔ a = b ∧ c = d := by
  constructor
  · intro h
    obtain rfl := text_inj ha.named hb.named h
    exact ⟨rfl, ha.unique hb⟩
  · rintro ⟨rfl, -⟩
    rfl

/-- The song, its stream on a channel, the loop and a reference there have names that begin alike.
-/
theorem text_eq_iff_fds : IsOf (streamLoop 0 "fds") (some .fdsWave) ∧
    IsOf (streamRef 0 "fds" 1) (some .fdsWave) ∧
    ¬ text "title_" (streamLoop 0 "fds") = text "title_" (streamRef 0 "fds" 1) :=
  ⟨rfl, rfl, fun h => Label.noConfusion ((text_eq_iff (a := streamLoop 0 "fds")
    (b := streamRef 0 "fds" 1) (c := some .fdsWave) (d := some .fdsWave) rfl rfl).1 h).1⟩

end Label

end Chiptune
