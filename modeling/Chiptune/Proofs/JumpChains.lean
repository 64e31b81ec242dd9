import Chiptune.Proofs.Curves
import Mathlib.Data.List.Perm.Subperm

/-!
# Chains of jumps

A player that needs a record follows jumps until it meets one, and gives up after as many jumps as
there are bytes, or at a jump to itself. In bytes of any kind, jumps may lead in circles; but on the
way to a record no jump comes twice, so that a chain that ends has fewer jumps than there are bytes.

* `Chain.length_lt`: **a chain of jumps to a record is shorter than the bytes**, since its jumps
  stand at different offsets.
* `follows_iff`: `seek` is the loop of the player, which ends with the limit of jumps or before.
* `follows_record_iff`: **the limit cuts no chain that ends at a record**.
* `play_chains`: **in a play, the curve halts just where following jumps leads to no record**, and
  from there on holds its value.
-/

set_option autoImplicit false

namespace Chiptune.Curve

/-! ## Chains -/

/-- At an offset stands a jump to another one. -/
structure JumpsTo (bytes : Array UInt8) (offset target : Nat) : Prop where
  jump : bytes[offset]? = some jump
  target : (bytes[offset + 1]?).map UInt8.toNat = some target

/-- At an offset stands a byte that is no jump. -/
def RecordAt (bytes : Array UInt8) (offset : Nat) : Prop :=
  ∃ first, bytes[offset]? = some first ∧ first ≠ jump

/-- Jumps, of which the list has the offsets, lead from one offset to another. -/
inductive Chain (bytes : Array UInt8) : Nat → List Nat → Nat → Prop
  | nil (offset : Nat) : Chain bytes offset [] offset
  | cons {offset target stop : Nat} {jumps : List Nat} (hjump : JumpsTo bytes offset target)
      (h : Chain bytes target jumps stop) : Chain bytes offset (offset :: jumps) stop

/-- Following jumps from an offset leads to a record. -/
def Reaches (bytes : Array UInt8) (offset stop : Nat) : Prop :=
  ∃ jumps, Chain bytes offset jumps stop ∧ RecordAt bytes stop

variable {bytes : Array UInt8}

theorem JumpsTo.unique {offset target target' : Nat} (h : JumpsTo bytes offset target)
    (h' : JumpsTo bytes offset target') : target = target' :=
  Option.some.inj (h.target.symm.trans h'.target)

theorem JumpsTo.lt_size {offset target : Nat} (h : JumpsTo bytes offset target) :
    offset < bytes.size :=
  (Array.getElem?_eq_some_iff.1 h.jump).1

theorem JumpsTo.not_recordAt {offset target : Nat} (h : JumpsTo bytes offset target) :
    ¬ RecordAt bytes offset := by
  rintro ⟨first, hfirst, hne⟩
  exact hne (Option.some.inj (hfirst.symm.trans h.jump))

/-- From each offset one chain leads to a record, if any. -/
theorem Chain.unique {offset stop stop' : Nat} {jumps jumps' : List Nat}
    (h : Chain bytes offset jumps stop) (hstop : RecordAt bytes stop)
    (h' : Chain bytes offset jumps' stop') (hstop' : RecordAt bytes stop') :
    jumps = jumps' ∧ stop = stop' := by
  induction h generalizing jumps' with
  | nil offset =>
    cases h' with
    | nil => exact ⟨rfl, rfl⟩
    | cons hjump => exact absurd hstop hjump.not_recordAt
  | cons hjump _ ih =>
    cases h' with
    | nil => exact absurd hstop' hjump.not_recordAt
    | cons hjump' h' =>
      obtain rfl := hjump.unique hjump'
      obtain ⟨rfl, rfl⟩ := ih hstop h'
      exact ⟨rfl, rfl⟩

/-- From each of its jumps on, a chain leads to the same record with no more jumps. -/
theorem Chain.of_mem {offset stop at' : Nat} {jumps : List Nat} (h : Chain bytes offset jumps stop)
    (hmem : at' ∈ jumps) :
    ∃ jumps', Chain bytes at' jumps' stop ∧ jumps'.length ≤ jumps.length := by
  induction h with
  | nil => cases hmem
  | cons hjump h ih =>
    rcases List.mem_cons.1 hmem with rfl | hmem
    · exact ⟨_, .cons hjump h, Nat.le_refl _⟩
    · obtain ⟨jumps', hchain, hle⟩ := ih hmem
      exact ⟨jumps', hchain, Nat.le_succ_of_le hle⟩

/-- **On the way to a record no jump comes twice**: a jump leads to the record by one chain only. -/
theorem Chain.nodup {offset stop : Nat} {jumps : List Nat} (h : Chain bytes offset jumps stop)
    (hstop : RecordAt bytes stop) : jumps.Nodup := by
  induction h with
  | nil => exact List.nodup_nil
  | @cons offset target stop jumps hjump h ih =>
    refine List.nodup_cons.2 ⟨fun hmem => ?_, ih hstop⟩
    obtain ⟨jumps', hchain, hle⟩ := h.of_mem hmem
    obtain ⟨rfl, -⟩ := (Chain.cons hjump h).unique hstop hchain hstop
    exact absurd hle (Nat.not_le_of_lt (Nat.lt_succ_self _))

theorem Chain.lt_size {offset stop : Nat} {jumps : List Nat} (h : Chain bytes offset jumps stop) :
    ∀ other ∈ jumps, other < bytes.size := by
  induction h with
  | nil => simp
  | cons hjump _ ih => exact List.forall_mem_cons.2 ⟨hjump.lt_size, ih⟩

theorem Chain.not_recordAt {offset stop : Nat} {jumps : List Nat}
    (h : Chain bytes offset jumps stop) : ∀ other ∈ jumps, ¬ RecordAt bytes other := by
  induction h with
  | nil => simp
  | cons hjump _ ih => exact List.forall_mem_cons.2 ⟨hjump.not_recordAt, ih⟩

/-- **A chain of jumps to a record has fewer jumps than there are bytes.** -/
theorem Chain.length_lt {offset stop : Nat} {jumps : List Nat} (h : Chain bytes offset jumps stop)
    (hstop : RecordAt bytes stop) : jumps.length < bytes.size := by
  -- the record and the jumps stand at different offsets
  have hnodup : (stop :: jumps).Nodup :=
    List.nodup_cons.2 ⟨fun hmem => h.not_recordAt stop hmem hstop, h.nodup hstop⟩
  have hbounds : ∀ offset ∈ stop :: jumps, offset < bytes.size := by
    obtain ⟨first, hfirst, -⟩ := hstop
    exact List.forall_mem_cons.2 ⟨(Array.getElem?_eq_some_iff.1 hfirst).1, h.lt_size⟩
  have hsubset : stop :: jumps ⊆ List.range bytes.size :=
    fun offset hmem => List.mem_range.2 (hbounds offset hmem)
  have hlength := (List.subperm_of_subset hnodup hsubset).length_le
  rwa [List.length_range] at hlength

/-! ## The loop -/

/-- The loop that follows jumps, at an offset and with a number of jumps behind it. It ends with the
offset of a record, or with none where it gives up: at a jump to itself, or at one jump more than
the limit. -/
inductive Follows (bytes : Array UInt8) (limit : Nat) : Nat → Nat → Option Nat → Prop
  | record {hops offset : Nat} (h : RecordAt bytes offset) :
      Follows bytes limit hops offset (some offset)
  | halt {hops offset target : Nat} (hjump : JumpsTo bytes offset target)
      (h : target = offset ∨ limit < hops + 1) : Follows bytes limit hops offset none
  | jump {hops offset target : Nat} {result : Option Nat} (hjump : JumpsTo bytes offset target)
      (hne : target ≠ offset) (hle : hops + 1 ≤ limit)
      (h : Follows bytes limit (hops + 1) target result) : Follows bytes limit hops offset result

theorem seek_recordAt {offset : Nat} (h : RecordAt bytes offset) (hops : Nat) :
    seek bytes hops offset = some (some offset) := by
  obtain ⟨first, hfirst, hne⟩ := h
  exact Player.seek_record hfirst hne

/-- At a jump the search goes on at the target, with one jump less. -/
theorem seek_jumpsTo {offset target : Nat} (h : JumpsTo bytes offset target) (hops : Nat) :
    seek bytes hops offset =
      if target = offset then some none
      else match hops with
        | 0 => some none
        | hops + 1 => seek bytes hops target := by
  obtain ⟨operand, hoperand, rfl⟩ := Option.map_eq_some_iff.1 h.target
  rw [seek]
  simp only [h.jump, hoperand, Option.bind_eq_bind, Option.bind_some, ne_eq, not_true_eq_false,
    if_false]
  split
  · rfl
  · cases hops <;> rfl

/-- A search that is in bounds begins at a record or at a jump. -/
theorem recordAt_or_jumpsTo {offset hops : Nat} {result : Option Nat}
    (h : seek bytes hops offset = some result) :
    RecordAt bytes offset ∨ ∃ target, JumpsTo bytes offset target := by
  rw [seek] at h
  obtain ⟨first, hfirst, h⟩ := Option.bind_eq_some_iff.1 h
  by_cases hne : first = jump
  · simp only [hne, ne_eq, not_true_eq_false, if_false] at h
    obtain ⟨operand, hoperand, -⟩ := Option.bind_eq_some_iff.1 h
    exact .inr ⟨operand.toNat, hne ▸ hfirst, by rw [hoperand]; rfl⟩
  · exact .inl ⟨first, hfirst, hne⟩

/-- **The search is the loop**: the jumps that are left are those that the limit leaves. -/
theorem follows_iff {limit hops offset : Nat} {result : Option Nat} (hle : hops ≤ limit) :
    Follows bytes limit hops offset result ↔ seek bytes (limit - hops) offset = some result := by
  constructor
  · intro h
    induction h with
    | record h => exact seek_recordAt h _
    | @halt hops offset target hjump h =>
      rw [seek_jumpsTo hjump]
      split
      · rfl
      · rw [show limit - hops = 0 by omega]
    | @jump hops offset target result hjump hne hlimit _ ih =>
      rw [seek_jumpsTo hjump, if_neg hne, show limit - hops = limit - (hops + 1) + 1 by omega]
      exact ih hlimit
  · generalize hleft : limit - hops = left
    induction left generalizing hops offset with
    | zero =>
      intro h
      rcases recordAt_or_jumpsTo h with hrecord | ⟨target, hjump⟩
      · obtain rfl := Option.some.inj ((seek_recordAt hrecord 0).symm.trans h)
        exact .record hrecord
      · rw [seek_jumpsTo hjump, ite_self] at h
        cases h
        exact .halt hjump (.inr (by omega))
    | succ left ih =>
      intro h
      rcases recordAt_or_jumpsTo h with hrecord | ⟨target, hjump⟩
      · obtain rfl := Option.some.inj ((seek_recordAt hrecord _).symm.trans h)
        exact .record hrecord
      · rw [seek_jumpsTo hjump] at h
        split at h
        · rename_i hself
          cases h
          exact .halt hjump (.inl hself)
        · rename_i hne
          exact .jump hjump hne (by omega) (ih (by omega) (by omega) h)

theorem Follows.unique {limit offset : Nat} {result result' : Option Nat}
    (h : Follows bytes limit 0 offset result) (h' : Follows bytes limit 0 offset result') :
    result = result' := by
  rw [follows_iff (Nat.zero_le _)] at h h'
  exact Option.some.inj (h.symm.trans h')

/-- The record that the loop ends with is one that jumps lead to. -/
theorem Follows.reaches {limit hops offset stop : Nat}
    (h : Follows bytes limit hops offset (some stop)) : Reaches bytes offset stop := by
  generalize hresult : some stop = result at h
  induction h with
  | record h =>
    cases hresult
    exact ⟨[], .nil _, h⟩
  | halt => cases hresult
  | jump hjump _ _ _ ih =>
    obtain ⟨jumps, hchain, hstop⟩ := ih hresult
    exact ⟨_, .cons hjump hchain, hstop⟩

/-- The loop follows a chain to a record as long as its limit allows. -/
theorem Chain.follows {limit hops offset stop : Nat} {jumps : List Nat}
    (h : Chain bytes offset jumps stop) (hstop : RecordAt bytes stop)
    (hle : hops + jumps.length ≤ limit) : Follows bytes limit hops offset (some stop) := by
  induction h generalizing hops with
  | nil => exact .record hstop
  | @cons offset target stop jumps hjump h ih =>
    rw [List.length_cons] at hle
    refine .jump hjump ?_ (by omega) (ih hstop (by omega))
    -- behind a jump to itself no chain would end
    rintro rfl
    have hlength := congrArg List.length ((Chain.cons hjump h).unique hstop h hstop).1
    exact absurd hlength (Nat.succ_ne_self _)

/-- **The limit cuts no chain that ends at a record.** -/
theorem follows_record_iff {offset stop : Nat} :
    Follows bytes bytes.size 0 offset (some stop) ↔ Reaches bytes offset stop := by
  constructor
  · exact Follows.reaches
  · rintro ⟨jumps, hchain, hstop⟩
    refine hchain.follows hstop ?_
    rw [Nat.zero_add]
    exact Nat.le_of_lt (hchain.length_lt hstop)

/-! ## A player that needs a record -/

/-- A player is about to read a record. -/
def Player.Due (p : Player) : Prop := p.runLeft = 0 ∧ p.halted = false

/-- What becomes of a player that is about to read a record. -/
structure Player.Settles (bytes : Array UInt8) (p q : Player) : Prop where
  /-- The loop that follows jumps ends. -/
  ends : ∃ result, Follows bytes bytes.size 0 p.position result
  /-- The curve halts just if following jumps leads to no record. -/
  halted_iff : q.halted = true ↔ ¬ ∃ stop, Reaches bytes p.position stop
  value : q.halted = true → q.value = p.value
  /-- A record that jumps lead to is read as if there had been no jumps. -/
  reads : ∀ stop, Reaches bytes p.position stop →
    ({ p with position := stop } : Player).fetch bytes = some q

namespace Player

variable {p q : Player}

/-- Without a record to be found the curve halts. -/
theorem Due.fetch_none (h : p.Due) (hseek : seek bytes bytes.size p.position = some none) :
    p.fetch bytes = some { p with halted := true } := by
  simp [fetch, h.1, h.2, hseek]

/-- A record is read wherever the search for it began. -/
theorem Due.fetch_some (h : p.Due) {stop : Nat}
    (hseek : seek bytes bytes.size p.position = some (some stop)) (hstop : RecordAt bytes stop) :
    p.fetch bytes = ({ p with position := stop } : Player).fetch bytes := by
  simp only [fetch, h.1, h.2, hseek, seek_recordAt hstop]
  rfl

/-- Reading a record does not halt the curve. -/
theorem Due.halted_fetch (h : p.Due) (hrecord : RecordAt bytes p.position)
    (hq : p.fetch bytes = some q) : q.halted = false := by
  have hseek := seek_recordAt hrecord bytes.size
  obtain ⟨first, hfirst, -⟩ := hrecord
  by_cases hvalue : 0x80 ≤ first
  · simp only [fetch, h.1, h.2, hseek, hfirst, Option.bind_eq_bind, Option.bind_some,
      if_pos hvalue] at hq
    cases hq
    rfl
  · simp only [fetch, h.1, h.2, hseek, hfirst, Option.bind_eq_bind, Option.bind_some,
      if_neg hvalue] at hq
    obtain ⟨value, -, hq⟩ := Option.bind_eq_some_iff.1 hq
    cases hq
    rfl

/-- **A player that needs a record finds it, or halts where there is none.** -/
theorem Due.settles (h : p.Due) (hq : p.fetch bytes = some q) : p.Settles bytes q := by
  have hfollows : ∀ {result}, seek bytes bytes.size p.position = some result →
      Follows bytes bytes.size 0 p.position result :=
    (follows_iff (Nat.zero_le _)).2
  cases hseek : seek bytes bytes.size p.position with
  | none =>
    simp [fetch, h.1, h.2, hseek] at hq
  | some result =>
    have hends := hfollows hseek
    cases result with
    | none =>
      obtain rfl := Option.some.inj ((h.fetch_none hseek).symm.trans hq)
      have hnever : ¬ ∃ stop, Reaches bytes p.position stop := by
        rintro ⟨stop, hreaches⟩
        cases hends.unique (follows_record_iff.2 hreaches)
      exact ⟨⟨_, hends⟩, ⟨fun _ => hnever, fun _ => rfl⟩, fun _ => rfl,
        fun stop hreaches => absurd ⟨stop, hreaches⟩ hnever⟩
    | some found =>
      have hreaches := follows_record_iff.1 hends
      obtain ⟨-, -, hrecord⟩ := id hreaches
      have hread := (h.fetch_some hseek hrecord).symm.trans hq
      have hruns : q.halted = false :=
        Due.halted_fetch (p := { p with position := found }) h hrecord hread
      refine ⟨⟨_, hends⟩, ⟨fun hhalted => ?_, fun hnever => absurd ⟨found, hreaches⟩ hnever⟩,
        fun hhalted => ?_, fun stop hstop => ?_⟩
      · rw [hruns] at hhalted
        cases hhalted
      · rw [hruns] at hhalted
        cases hhalted
      · obtain rfl := Option.some.inj (hends.unique (follows_record_iff.2 hstop))
        exact hread

/-- A halted player keeps its state. -/
theorem fetch_halted (h : p.halted = true) : p.fetch bytes = some p := by
  simp [fetch, h]

end Player

/-! ## Plays -/

/-- A player on a frame, released if the note is released there. -/
def Player.onFrame (bytes : Array UInt8) (releaseAt : Option Nat) (frame : Nat) (p : Player) :
    Option Player :=
  if releaseAt == some frame then p.release bytes else some p

/-- The player of a play when it is about to fetch the value of a frame. -/
def entering (bytes : Array UInt8) (releaseAt : Option Nat) : Nat → Option Player
  | 0 => ({} : Player).onFrame bytes releaseAt 0
  | frame + 1 => do
    let p ← entering bytes releaseAt frame
    let q ← p.fetch bytes
    q.tick.onFrame bytes releaseAt (frame + 1)

theorem frame_eq (releaseAt : Option Nat) (frame : Nat) (p : Player) :
    p.frame bytes (releaseAt == some frame) =
      (p.onFrame bytes releaseAt frame).bind (·.fetch bytes) := by
  unfold Player.frame Player.onFrame
  split <;> rfl

/-- Every value that is played is fetched by the player of its frame. -/
theorem playFrom_entering {releaseAt : Option Nat} {count start : Nat} {p : Player}
    {values : List Int8} (h : playFrom bytes releaseAt count start p = some values)
    (hp : entering bytes releaseAt start = p.onFrame bytes releaseAt start) {i : Nat}
    (hi : i < count) : ∃ p q, entering bytes releaseAt (start + i) = some p ∧
      p.fetch bytes = some q ∧ values[i]? = some q.value := by
  induction count generalizing start p values i with
  | zero => exact absurd hi (Nat.not_lt_zero i)
  | succ count ih =>
    rw [playFrom, frame_eq] at h
    obtain ⟨q, hq, h⟩ := Option.bind_eq_some_iff.1 h
    obtain ⟨rest, hrest, h⟩ := Option.bind_eq_some_iff.1 h
    obtain rfl := Option.some.inj h
    obtain ⟨entered, hentered, hfetch⟩ := Option.bind_eq_some_iff.1 hq
    rw [hentered] at hp
    cases i with
    | zero => exact ⟨entered, q, hp, hfetch, rfl⟩
    | succ i =>
      have hnext : entering bytes releaseAt (start + 1) =
          q.tick.onFrame bytes releaseAt (start + 1) := by
        simp [entering, hp, hfetch]
      have hlater := ih hrest hnext (Nat.lt_of_succ_lt_succ hi)
      rwa [Nat.add_assoc, Nat.add_comm 1] at hlater

/-- Until the note is released, a halted curve stays as it is. -/
theorem entering_halted {releaseAt : Option Nat} {frame : Nat} {p q : Player}
    (hp : entering bytes releaseAt frame = some p) (hq : p.fetch bytes = some q)
    (hhalted : q.halted = true) {count : Nat}
    (hrelease : ∀ release ∈ releaseAt, release ≤ frame ∨ frame + count < release) :
    ∃ p' q', entering bytes releaseAt (frame + count) = some p' ∧ p'.fetch bytes = some q' ∧
      q'.halted = true ∧ q'.value = q.value := by
  induction count with
  | zero => exact ⟨p, q, hp, hq, hhalted, rfl⟩
  | succ count ih =>
    obtain ⟨p', q', hp', hq', hhalted', hvalue⟩ := ih fun release hmem => by
      have hlate := hrelease release hmem
      omega
    have hsilent : (releaseAt == some (frame + count + 1)) = false := by
      refine beq_eq_false_iff_ne.2 fun heq => ?_
      have hlate := hrelease _ heq
      omega
    have hnext : entering bytes releaseAt (frame + count + 1) = some q'.tick := by
      simp [entering, hp', hq', Player.onFrame, hsilent]
    have hfetch : q'.tick.fetch bytes = some q'.tick := Player.fetch_halted hhalted'
    exact ⟨q'.tick, q'.tick, hnext, hfetch, hhalted', hvalue⟩

/-- **In a play that is in bounds the limit of jumps is exact.** On every frame there is a player
that fetches the value. If it needs a record, its loop ends, and the curve halts just if following
jumps from its offset leads to no record; every record that jumps lead to is read, however many they
are. A halted curve holds its value until the note is released. -/
theorem play_chains {curve : List UInt8} {frames : Nat} {releaseAt : Option Nat}
    {values : List Int8} (h : play curve frames releaseAt = some values) {frame : Nat}
    (hframe : frame < frames) :
    ∃ p q : Player, entering curve.toArray releaseAt frame = some p ∧
      p.fetch curve.toArray = some q ∧ values[frame]? = some q.value ∧
      (p.Due → p.Settles curve.toArray q) ∧
      (q.halted = true → ∀ later, frame ≤ later → later < frames →
        (∀ release ∈ releaseAt, release ≤ frame ∨ later < release) →
        values[later]? = some q.value) := by
  have hfetches : ∀ frame < frames, ∃ p q, entering curve.toArray releaseAt frame = some p ∧
      p.fetch curve.toArray = some q ∧ values[frame]? = some q.value := by
    intro frame hframe
    have hfetch := playFrom_entering h rfl hframe
    rwa [Nat.zero_add] at hfetch
  obtain ⟨p, q, hp, hq, hvalue⟩ := hfetches frame hframe
  refine ⟨p, q, hp, hq, hvalue, fun hdue => hdue.settles hq,
    fun hhalted later hle hlater hrelease => ?_⟩
  obtain ⟨count, rfl⟩ := Nat.exists_eq_add_of_le hle
  obtain ⟨p', q', hp', hq', -, hheld⟩ := entering_halted hp hq hhalted hrelease
  obtain ⟨p'', q'', hp'', hq'', hvalue'⟩ := hfetches _ hlater
  obtain rfl := Option.some.inj (hp'.symm.trans hp'')
  obtain rfl := Option.some.inj (hq'.symm.trans hq'')
  rw [hvalue', hheld]

/-- A curve of one value whose jumps behind it lead in a circle. -/
def circle : List UInt8 := [0x00, 0xC5, jump, 0x04, jump, 0x02]

/-- On its second frame the curve that ends in a circle halts, and holds the value of the first. -/
theorem play_chains_circle : play circle 4 none = some [5, 5, 5, 5] ∧
    ∃ p q : Player, entering circle.toArray none 1 = some p ∧ p.Due ∧
      p.fetch circle.toArray = some q ∧ q.halted = true ∧
      ¬ ∃ stop, Reaches circle.toArray p.position stop := by
  have hplay : play circle 4 none = some [5, 5, 5, 5] := by decide +kernel
  obtain ⟨p, q, hp, hq, -, hsettles, -⟩ := play_chains hplay (show 1 < 4 by decide)
  obtain rfl : ⟨2, 0, 5, false⟩ = p := Option.some.inj (Eq.trans (by decide +kernel) hp)
  obtain rfl : ⟨2, 0, 5, true⟩ = q := Option.some.inj (Eq.trans (by decide +kernel) hq)
  exact ⟨hplay, _, _, hp, ⟨rfl, rfl⟩, hq, rfl, (hsettles ⟨rfl, rfl⟩).halted_iff.1 rfl⟩

end Chiptune.Curve
