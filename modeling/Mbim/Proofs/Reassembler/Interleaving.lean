import Mathlib.Data.List.Basic
import Mbim.Proofs.Split.Pieces

/-!
# Interleaved messages

Several messages are under way at once: their pieces come mixed with each other and with whatever
else there is, the pieces of each message in order.

* `Reassembler.Traffic`: what comes in, each entry with the message that it is a piece of, if any.
* `Reassembler.Interleaving`: the messages have keys of their own, their pieces come in order, and
  nothing else comes under these keys.
* `Reassembler.Reachable.run_interleaving`: each message is put together with its last piece.
-/

namespace Mbim

namespace Reassembler

/-- One entry of what comes in: a piece of one of the messages `ι`, or anything else. -/
inductive Traffic (ι : Type) where
  | piece (owner : ι) (message : Message) (now : Nat)
  | other (op : Op)

namespace Traffic

variable {ι : Type} [DecidableEq ι]

/-- The operation on the reassembler. -/
def op : Traffic ι → Op
  | piece _ m now => .push m now
  | other op => op

/-- The piece of the message `i`, with its clock reading. -/
def pieceOf? (i : ι) : Traffic ι → Option (Message × Nat)
  | piece owner m now => if owner = i then some (m, now) else none
  | other _ => none

/-- Whether the entry is a piece of the message `i`. -/
def isPieceOf (i : ι) (e : Traffic ι) : Bool := (e.pieceOf? i).isSome

theorem pieceOf?_eq_some_iff {i : ι} {e : Traffic ι} {m : Message} {now : Nat} :
    e.pieceOf? i = some (m, now) ↔ e = .piece i m now := by
  cases e with
  | other op => simp [pieceOf?]
  | piece j m' now' =>
    by_cases hj : j = i
    · simp [pieceOf?, hj]
    · simp [pieceOf?, hj]

theorem isPieceOf_iff {i : ι} {e : Traffic ι} :
    e.isPieceOf i ↔ ∃ m now, e = .piece i m now := by
  rw [isPieceOf, Option.isSome_iff_exists, Prod.exists]
  simp only [pieceOf?_eq_some_iff]

end Traffic

/-- The message `m` is valid, has the key `k`, is within the size cap and goes out in `pieces`. -/
structure Sent (limit : Limit) (k : Key) (m : Message) (pieces : List Message) : Prop where
  valid : m.validate = .ok ()
  key : m.key? = some k
  fits : m.bytes.length ≤ limit.bytes
  given : m.Given pieces

/-- The last of the readings is less than `timeout` after the first. -/
def InTime (timeout : Nat) (readings : List Nat) : Prop :=
  ∀ first ∈ readings.head?, ∀ last ∈ readings.getLast?, last - first < timeout

/-- Messages under keys of their own, whose pieces come in order and in time; nothing else comes
under these keys, and the clock does not run backwards. -/
structure Interleaving {ι : Type} [DecidableEq ι] (limit : Limit) (timeout : Nat) (key : ι → Key)
    (message : ι → Message) (pieces : ι → List Message) (traffic : List (Traffic ι)) : Prop where
  distinct : ∀ i j, key i = key j → i = j
  sent : ∀ i, Sent limit (key i) (message i) (pieces i)
  inOrder : ∀ i, (traffic.filterMap (Traffic.pieceOf? i)).map Prod.fst = pieces i
  foreign : ∀ op, .other op ∈ traffic → ∀ i, op.key? ≠ some (key i)
  clock : (traffic.map fun e => e.op.now).Pairwise (· ≤ ·)
  inTime : ∀ i, (pieces i).length = 1 ∨
    InTime timeout ((traffic.filterMap (Traffic.pieceOf? i)).map Prod.snd)

/-! ## Readings in time -/

/-- Of readings that do not decrease, the first and the last are furthest apart. -/
theorem InTime.sub_lt {timeout : Nat} {readings : List Nat} (h : InTime timeout readings)
    (hclock : readings.Pairwise (· ≤ ·)) {a b : Nat} (ha : a ∈ readings) (hb : b ∈ readings) :
    b - a < timeout := by
  have hne := List.ne_nil_of_mem ha
  have hfirst : readings.head hne ≤ a := by
    obtain ⟨x, xs, rfl⟩ := List.exists_cons_of_ne_nil hne
    obtain rfl | ha := List.mem_cons.mp ha
    · exact Nat.le_refl _
    · exact (List.pairwise_cons.mp hclock).1 a ha
  have hlast : b ≤ readings.getLast hne := by
    rw [← List.dropLast_concat_getLast hne] at hb hclock
    obtain hb | hb := List.mem_append.mp hb
    · exact (List.pairwise_append.mp hclock).2.2 b hb _ (by simp)
    · exact Nat.le_of_eq (List.mem_singleton.mp hb)
  have := h _ (List.head?_eq_some_head hne) _ (List.getLast?_eq_some_getLast hne)
  omega

/-! ## One of the messages -/

/-- Answers are picked by the operation, if the entries are picked by it. -/
theorem answersTo_eq_answersUnder {α : Type} {mine : α → Bool} {toOp : α → Op} {k : Key}
    {entries : List α} (h : ∀ e ∈ entries, mine e ↔ (toOp e).key? = some k)
    (results : List (Answer × Report)) :
    answersTo mine entries results = answersUnder k (entries.map toOp) results := by
  induction entries generalizing results with
  | nil => rfl
  | cons e entries ih =>
    cases results with
    | nil => rfl
    | cons a results =>
      have hmine := h e List.mem_cons_self
      have hrest := ih (fun e he => h e (List.mem_cons_of_mem _ he)) results
      simp only [answersTo_cons, List.map_cons, answersUnder_cons, hmine, hrest]

namespace Interleaving

variable {ι : Type} [DecidableEq ι] {limit : Limit} {timeout : Nat} {key : ι → Key}
  {message : ι → Message} {pieces : ι → List Message} {traffic : List (Traffic ι)}

theorem key?_of_mem (h : Interleaving limit timeout key message pieces traffic) {i : ι}
    {m : Message} {now : Nat} (hm : .piece i m now ∈ traffic) : m.key? = some (key i) := by
  have hpiece : m ∈ pieces i := by
    rw [← h.inOrder i]
    refine List.mem_map.mpr ⟨(m, now), ?_, rfl⟩
    exact List.mem_filterMap.mpr ⟨_, hm, Traffic.pieceOf?_eq_some_iff.mpr rfl⟩
  have hsent := h.sent i
  obtain ⟨total, parts, hms, -⟩ := hsent.given.exists_fragments hsent.valid hsent.key
  exact hms.key? hpiece

/-- What comes under the key of a message are its pieces. -/
theorem isPieceOf_iff (h : Interleaving limit timeout key message pieces traffic) (i : ι)
    {e : Traffic ι} (he : e ∈ traffic) : e.isPieceOf i ↔ e.op.key? = some (key i) := by
  rw [Traffic.isPieceOf_iff]
  constructor
  · rintro ⟨m, now, rfl⟩
    exact h.key?_of_mem he
  · intro hk
    cases e with
    | other op => exact absurd hk (h.foreign op he i)
    | piece j m now =>
      have hj : j = i := by
        apply h.distinct
        exact Option.some.inj ((h.key?_of_mem he).symm.trans hk)
      rw [hj]
      exact ⟨m, now, rfl⟩

theorem readings (h : Interleaving limit timeout key message pieces traffic) (i : ι) :
    ((traffic.filterMap (Traffic.pieceOf? i)).map Prod.snd).Pairwise (· ≤ ·) := by
  refine List.pairwise_map.mpr (List.Pairwise.filterMap _ ?_ (List.pairwise_map.mp h.clock))
  intro e e' hle ⟨m, now⟩ hm ⟨m', now'⟩ hm'
  rw [Traffic.pieceOf?_eq_some_iff.mp hm, Traffic.pieceOf?_eq_some_iff.mp hm'] at hle
  exact hle

/-- Seen from the key of a message, only its pieces are pushed. -/
theorem pushes_seenFrom (h : Interleaving limit timeout key message pieces traffic) (i : ι) :
    pushes ((traffic.map Traffic.op).map (Op.seenFrom (key i))) =
      traffic.filterMap (Traffic.pieceOf? i) := by
  rw [pushes, List.filterMap_map, List.filterMap_map]
  refine List.filterMap_congr fun e he => ?_
  have hiff := h.isPieceOf_iff i he
  show (e.op.seenFrom (key i)).pushed? = e.pieceOf? i
  by_cases hk : e.op.key? = some (key i)
  · obtain ⟨m, now, rfl⟩ := Traffic.isPieceOf_iff.mp (hiff.mpr hk)
    rw [Op.seenFrom_of_key? hk, Traffic.pieceOf?_eq_some_iff.mpr rfl]
    rfl
  · rw [Op.seenFrom_of_ne hk]
    have hnot := mt hiff.mp hk
    rw [Traffic.isPieceOf, Option.not_isSome_iff_eq_none] at hnot
    exact hnot.symm

end Interleaving

/-- Whatever comes in between, every message is put together: all pushes of its pieces but the last
are answered with `none`, the last with the message in one piece, and nothing is left of it. -/
theorem Reachable.run_interleaving {r : Reassembler} {limit : Limit} {timeout : Nat}
    (hr : Reachable limit timeout r) {ι : Type} [DecidableEq ι] {key : ι → Key}
    {message : ι → Message} {pieces : ι → List Message} {traffic : List (Traffic ι)}
    (h : Interleaving limit timeout key message pieces traffic)
    (hfree : ∀ i, r.find? (key i) = none) (i : ι) :
    answersTo (Traffic.isPieceOf i) traffic (r.run (traffic.map Traffic.op)).1 =
        seriesAnswers ((pieces i).length - 1) (message i).collapsed ∧
      (r.run (traffic.map Traffic.op)).2.find? (key i) = none := by
  have hsent := h.sent i
  obtain ⟨total, parts, hms, hne, hlen, hword, hcollapsed⟩ :=
    hsent.given.exists_fragments hsent.valid hsent.key
  obtain ⟨honly, hanswers⟩ := hr.sound.run_only (key i) (traffic.map Traffic.op)
  obtain ⟨hlimit, htimeout⟩ := hr.limits
  rw [only_of_find?_eq_none (hfree i), hlimit, htimeout] at honly hanswers
  have hpushes := h.pushes_seenFrom i
  have hclock : (((traffic.map Traffic.op).map (Op.seenFrom (key i))).map Op.now).Pairwise
      (· ≤ ·) := by
    have := h.clock
    simpa [List.map_map, Function.comp_def] using this
  have htime : (pieces i).length = 1 ∨ ∀ e ∈ traffic.filterMap (Traffic.pieceOf? i),
      ∀ e' ∈ traffic.filterMap (Traffic.pieceOf? i), e'.2 - e.2 < timeout := by
    refine (h.inTime i).imp_right fun hin e he e' he' => ?_
    exact hin.sub_lt (h.readings i) (List.mem_map_of_mem he) (List.mem_map_of_mem he')
  obtain ⟨hnext, hrun⟩ := run_fragments limit timeout hms hne (by rw [hpushes, h.inOrder i]) hclock
    (by rw [hpushes]; exact htime) (by have := hsent.fits; omega) hword
  rw [answersTo_eq_answersUnder (fun e he => h.isPieceOf_iff i he), ← hanswers, hrun, hcollapsed]
  refine ⟨rfl, ?_⟩
  rw [← find?_only, ← honly, hnext]
  rfl

/-! ## A command and an answer at once -/

/-- Two kinds that share a transaction id. -/
def crossingKey : Bool → Key
  | false => ⟨.command, 7⟩
  | true => ⟨.commandDone, 7⟩

def crossingMessage : Bool → Message
  | false => (crossingKey false).fragment .single [1, 2, 3, 4, 5]
  | true => (crossingKey true).fragment ⟨4, 2⟩ [6, 7, 8, 9]

/-- The one in slices of two bytes, the other in slices of three. -/
def crossingPieces : Bool → List Message
  | false =>
    [(crossingKey false).fragment ⟨3, 0⟩ [1, 2], (crossingKey false).fragment ⟨3, 1⟩ [3, 4],
      (crossingKey false).fragment ⟨3, 2⟩ [5]]
  | true =>
    [(crossingKey true).fragment ⟨2, 0⟩ [6, 7, 8], (crossingKey true).fragment ⟨2, 1⟩ [9]]

/-- Both mixed with bytes that are no message, a fragment out of its series and a sweep. -/
def crossing : List (Traffic Bool) :=
  [.piece false ((crossingKey false).fragment ⟨3, 0⟩ [1, 2]) 10,
    .piece true ((crossingKey true).fragment ⟨2, 0⟩ [6, 7, 8]) 20,
    .other (.push ⟨[3, 0]⟩ 20),
    .piece false ((crossingKey false).fragment ⟨3, 1⟩ [3, 4]) 25,
    .other (.push (Key.fragment ⟨.indication, 7⟩ ⟨2, 0⟩ []) 30),
    .piece true ((crossingKey true).fragment ⟨2, 1⟩ [9]) 109,
    .other (.sweep 109),
    .piece false ((crossingKey false).fragment ⟨3, 2⟩ [5]) 109]

theorem interleaving_crossing :
    Interleaving ⟨64, by decide⟩ 100 crossingKey crossingMessage crossingPieces crossing where
  distinct := by decide
  sent i := by
    cases i with
    | false => exact ⟨by decide, by decide, by decide, .split ⟨22, by decide⟩ rfl rfl⟩
    | true => exact ⟨by decide, by decide, by decide, .split ⟨23, by decide⟩ rfl rfl⟩
  inOrder := by decide
  foreign op hop := by
    simp only [crossing, List.mem_cons, reduceCtorEq, Traffic.other.injEq, false_or,
      List.not_mem_nil, or_false] at hop
    rcases hop with rfl | rfl | rfl <;> decide
  clock := by decide
  inTime i := by
    right
    intro first hfirst last hlast
    cases i <;> cases hfirst <;> cases hlast <;> decide

/-- The crossing meets a reassembler with a series under way, of a third kind and the same
transaction id. -/
theorem run_interleaving_crossing :
    let r := ((new ⟨64, by decide⟩ 100).push (Key.fragment ⟨.indication, 7⟩ ⟨2, 0⟩ []) 0).next
    let run := r.run (crossing.map Traffic.op)
    r.size = 1 ∧
      answersTo (Traffic.isPieceOf false) crossing run.1 =
        [.pushed (.ok none), .pushed (.ok none),
          .pushed (.ok (some ((crossingKey false).fragment .single [1, 2, 3, 4, 5])))] ∧
      answersTo (Traffic.isPieceOf true) crossing run.1 =
        [.pushed (.ok none),
          .pushed (.ok (some ((crossingKey true).fragment .single [6, 7, 8, 9])))] ∧
      ∀ i, run.2.find? (crossingKey i) = none := by
  intro r run
  have hr : Reachable ⟨64, by decide⟩ 100 r :=
    .step .new (.push (Key.fragment ⟨.indication, 7⟩ ⟨2, 0⟩ []) 0)
  have hrun := hr.run_interleaving interleaving_crossing (by decide)
  refine ⟨by decide, (hrun false).1.trans ?_, (hrun true).1.trans ?_, fun i => (hrun i).2⟩
  · decide
  · decide

end Reassembler

end Mbim
