import Mathlib.Data.List.Induction
import Mathlib.Data.List.Nodup
import Mbim.Proofs.Reassembler.Conservation
import Mbim.Proofs.Reassembler.Soundness

/-!
# How long a series is kept

A series is kept from its first fragment on as long as every operation comes in time, counted from
that first fragment, and every push under its key is the fragment that is due. A series that is
given up may be followed by another one under the same key, which may even have started at the same
reading; what tells them apart is the push that they started with.

* `Reassembler.startOf`: the place in a run of the push that the series under a key started with.
* `Reassembler.Account.Unfinished`: the fragments of a series so far, within the size cap, with
  more of them due.
* `Reassembler.Fate`: what an operation does to a series that is held (`Reassembler.Sound.fate`).
* `Reassembler.Arises`: how a message comes about: at once, or from a series in time.
* `Reassembler.series_lifetime`: for every run and whatever the clock reads, which series is held,
  and which messages are delivered.
-/

namespace Mbim

namespace Reassembler

variable {r : Reassembler} {m : Message} {k : Key} {now : Nat}

/-! ## Which series it is -/

/-- The place of the push that the series under `k` started with, after one more operation, which
has the place `place`. A series that is there after the sweep goes on. -/
def origin (r : Reassembler) (k : Key) (place : Nat) (old : Option Nat) (op : Op) : Option Nat :=
  match (r.live op.now).find? k, (r.step op).next.find? k with
  | some _, some _ => old
  | none, some _ => some place
  | _, none => none

/-- The place of the push that the series under `k` started with, after operations from `place`
on. -/
def originAll (r : Reassembler) (k : Key) (place : Nat) (old : Option Nat) : List Op → Option Nat
  | [] => old
  | op :: ops => (r.step op).next.originAll k (place + 1) (r.origin k place old op) ops

/-- The place of the push that the series under `k` started with, if there is one after the run from
an empty reassembler. -/
def startOf (limit : Limit) (timeout : Nat) (k : Key) (ops : List Op) : Option Nat :=
  (new limit timeout).originAll k 0 none ops

theorem originAll_append (r : Reassembler) (k : Key) (place : Nat) (old : Option Nat)
    (ops more : List Op) :
    r.originAll k place old (ops ++ more) =
      (r.run ops).2.originAll k (place + ops.length) (r.originAll k place old ops) more := by
  induction ops generalizing r place old with
  | nil => rfl
  | cons op ops ih =>
    rw [List.cons_append, originAll, ih, List.length_cons, Nat.add_right_comm, Nat.add_assoc]
    rfl

theorem startOf_concat (limit : Limit) (timeout : Nat) (k : Key) (ops : List Op) (op : Op) :
    startOf limit timeout k (ops ++ [op]) =
      ((new limit timeout).run ops).2.origin k ops.length (startOf limit timeout k ops) op := by
  rw [startOf, originAll_append, Nat.zero_add]
  rfl

/-- A series that is over does not come back: later ones start in later places. -/
theorem originAll_ne {n place : Nat} {old : Option Nat} (hold : old ≠ some n) (hplace : n < place)
    (r : Reassembler) (ops : List Op) : r.originAll k place old ops ≠ some n := by
  induction ops generalizing r place old with
  | nil => exact hold
  | cons op ops ih =>
    refine ih ?_ (Nat.lt_succ_of_lt hplace) _
    unfold origin
    split
    · exact hold
    · simpa using Nat.ne_of_gt hplace
    · simp

/-! ## Finding a series again -/

theorem Sound.eq_of_key_eq (hs : r.Sound) {p q : Partial} (hp : p ∈ r.partials)
    (hq : q ∈ r.partials) (h : p.key = q.key) : p = q :=
  List.inj_on_of_nodup_map hs.nodup hp hq h

theorem Sound.find?_eq_some_iff (hs : r.Sound) {p : Partial} :
    r.find? k = some p ↔ p ∈ r.partials ∧ p.key = k := by
  refine ⟨mem_of_find?, fun ⟨hmem, hkey⟩ => ?_⟩
  cases hfind : r.find? k with
  | none => exact absurd hkey (find?_eq_none_iff.mp hfind p hmem)
  | some q =>
    obtain ⟨hq, hkey'⟩ := mem_of_find? hfind
    rw [hs.eq_of_key_eq hq hmem (hkey'.trans hkey.symm)]

theorem Sound.find?_live_eq_some_iff (hs : r.Sound) {p : Partial} :
    (r.live now).find? k = some p ↔ r.find? k = some p ∧ now - p.startedAt < r.timeout := by
  rw [(hs.live now).find?_eq_some_iff, hs.find?_eq_some_iff]
  simp [Reassembler.live, Partial.isExpired, and_right_comm]

/-- What is pushed under another key, or not at all, takes nothing away but by the sweep. -/
theorem Sound.find?_step_of_ne (hs : r.Sound) {op : Op} (h : op.key? ≠ some k) :
    (r.step op).next.find? k = (r.live op.now).find? k := by
  have hstep := hs.step_only k op
  rw [Op.seenFrom_of_ne h] at hstep
  rw [← find?_only, ← hstep, ← find?_only (r.live op.now), only_live]
  rfl

theorem find?_keep_without (r : Reassembler) (p : Partial) :
    ((r.without p.key).keep p).find? p.key = some p := by
  have hfree := find?_without r p.key
  unfold find? at hfree ⊢
  rw [keep, List.find?_append, hfree, Option.none_or]
  simp

/-! ## Series that are not finished -/

namespace Account

/-- The fragments of the series so far are in order and within the size cap, and more of them are
due. -/
structure Unfinished (limit : Limit) (a : Account) : Prop where
  gathers : Gathers a.key a.taken
  missing : a.taken.length < a.total.toNat
  fits : overhead + a.payload.length ≤ limit.bytes
  word : overhead + a.payload.length < wordBound

/-- More messages of the series. -/
def addAll (a : Account) (ms : List Message) : Account := { a with later := a.later ++ ms }

@[simp] theorem addAll_nil (a : Account) : a.addAll [] = a := by simp [addAll]

theorem addAll_append (a : Account) (ms more : List Message) :
    a.addAll (ms ++ more) = (a.addAll ms).addAll more := by
  simp [addAll]

theorem payload_add (a : Account) (m : Message) :
    (a.add m).payload = a.payload ++ m.payloadBytes := by
  rw [payload, payload, taken_add, List.flatMap_append, List.flatMap_singleton]

/-- A series that is not finished with more messages is not without them. -/
theorem Unfinished.of_addAll {limit : Limit} {a : Account} (ms : List Message)
    (h : (a.addAll ms).Unfinished limit) : a.Unfinished limit := by
  have htaken : (a.addAll ms).taken = a.taken ++ ms := rfl
  have hpayload : a.payload.length ≤ (a.addAll ms).payload.length := by
    rw [payload, payload, htaken, List.flatMap_append, List.length_append]
    exact Nat.le_add_right ..
  have hmissing : (a.taken ++ ms).length < a.total.toNat := h.missing
  rw [List.length_append] at hmissing
  refine ⟨?_, by omega, Nat.le_trans (Nat.add_le_add_left hpayload _) h.fits,
    Nat.lt_of_le_of_lt (Nat.add_le_add_left hpayload _) h.word⟩
  intro i m hm
  refine h.gathers i m ?_
  rw [htaken, List.getElem?_append_left (List.getElem?_eq_some_iff.mp hm).1, hm]

end Account

/-! ## What an operation does to a series -/

variable {a : Account}

theorem Account.unfinished_of_toPartial {limit : Limit} (hg : Gathers a.key a.taken)
    {p : Position} {payload : Bytes} {startedAt : Nat}
    (h : a.toPartial = ⟨k, k.series p payload, startedAt⟩)
    (hinc : p.current.toNat + 1 < p.total.toNat)
    (hfits : overhead + payload.length ≤ limit.bytes)
    (hword : overhead + payload.length < wordBound) : a.Unfinished limit := by
  obtain ⟨rfl, hseries, -⟩ := Partial.mk.inj h
  obtain ⟨rfl, rfl⟩ := Key.series_inj hseries
  dsimp only at hinc
  rw [Account.toNat_current hg] at hinc
  exact ⟨hg, hinc, hfits, hword⟩

/-- The fragment that is due, within the limits, is taken, and the series goes on. -/
theorem accept_of_unfinished (hfind : r.find? a.key = some a.toPartial)
    (h : (a.add m).Unfinished r.limit) (now : Nat) :
    r.accept m now =
      ⟨.ok none, (r.without a.key).keep (a.add m).toPartial, .counted .inbound⟩ := by
  have hg : Gathers a.key a.taken := (Account.Unfinished.of_addAll [m] h).gathers
  have hcurrent := Account.toNat_current hg
  have hlast : (a.add m).taken[a.taken.length]? = some m := by
    rw [Account.taken_add, List.getElem?_concat_length]
  obtain ⟨q, hc, hq⟩ := h.gathers _ m hlast
  have hlength : a.taken.length = a.later.length + 1 := rfl
  have hmissing : a.later.length + 2 < a.total.toNat := by
    have := h.missing
    rw [Account.taken_add, List.length_append, hlength] at this
    exact this
  have hinc : (UInt32.ofNat a.later.length).toNat + 1 < a.total.toNat := by omega
  have hdue : q.current.toNat = (UInt32.ofNat a.later.length).toNat + 1 := by omega
  have htaken : Taken m a.key now (some a.toPartial) ⟨a.total, q.current⟩
      (a.payload ++ m.payloadBytes) a.startedAt := .next hc hinc hdue
  have hfits : overhead + (a.payload ++ m.payloadBytes).length ≤ (r.without a.key).limit.bytes := by
    rw [← Account.payload_add]
    exact h.fits
  have hword : overhead + (a.payload ++ m.payloadBytes).length < wordBound := by
    rw [← Account.payload_add]
    exact h.word
  have hincomplete : q.current.toNat + 1 ≠ a.total.toNat := by omega
  rw [(htaken.toPartial_next hg).1]
  exact (accept_next hc hfind hinc hdue hword now).trans
    (settle_of_pending (p := ⟨a.total, q.current⟩) hfits hincomplete)

/-- What a push under a key comes to once the sweep is done. -/
theorem Sound.accepted_push (hs : r.Sound) (hk : m.key? = some k) (now : Nat) :
    Accepted (r.live now) m k now (r.push m now).result (r.step (.push m now)).next := by
  show Accepted (r.live now) m k now (r.push m now).result (r.push m now).next
  rw [hs.push_eq]
  exact (hs.live now).accepted hk now

/-- A push that leaves the series unfinished is answered with `none`, and the series is kept. -/
theorem Sound.push_of_unfinished (hs : r.Sound)
    (hlive : (r.live now).find? a.key = some a.toPartial) (h : (a.add m).Unfinished r.limit) :
    (r.push m now).result = .ok none ∧
      (r.step (.push m now)).next.find? a.key = some (a.add m).toPartial := by
  have haccept := accept_of_unfinished (r := r.live now) hlive h now
  show (r.push m now).result = _ ∧ (r.push m now).next.find? a.key = _
  rw [hs.push_eq, haccept]
  exact ⟨rfl, find?_keep_without (r.live now) (a.add m).toPartial⟩

/-- A push that does not leave the series unfinished ends it, and is not answered with `none`. -/
theorem Sound.push_of_not_unfinished (hs : r.Sound) (hk : m.key? = some a.key)
    (hlive : (r.live now).find? a.key = some a.toPartial) (hg : Gathers a.key a.taken)
    (h : ¬ (a.add m).Unfinished r.limit) :
    (r.push m now).result ≠ .ok none ∧ (r.step (.push m now)).next.find? a.key = none := by
  have haccepted := hs.accepted_push hk now
  generalize (r.push m now).result = result, (r.step (.push m now)).next = next at haccepted ⊢
  cases haccepted with
  | refused => exact ⟨nofun, find?_without _ _⟩
  | last => exact ⟨nofun, find?_without _ _⟩
  | pending taken fits word incomplete =>
    rw [hlive] at taken
    obtain ⟨hentry, hgathers⟩ := taken.toPartial_next hg
    exact absurd (Account.unfinished_of_toPartial hgathers hentry incomplete fits word) h

/-- What an operation does to the series of an account. -/
inductive Fate (r : Reassembler) (a : Account) (op : Op) : Prop
  /-- The operation comes in time, and what it pushes under the key is the fragment that is due. -/
  | goesOn (inTime : op.now - a.startedAt < r.timeout)
    (found : (r.live op.now).find? a.key = some a.toPartial)
    (unfinished : (a.addAll (op.pushedUnder? a.key).toList).Unfinished r.limit)
    (kept : (r.step op).next.find? a.key =
      some (a.addAll (op.pushedUnder? a.key).toList).toPartial)
    (answer : op.key? = some a.key → (r.step op).result = .pushed (.ok none))
  /-- The time of the series is over. -/
  | overdue (late : r.timeout ≤ op.now - a.startedAt) (gone : (r.live op.now).find? a.key = none)
  /-- What the operation pushes under the key is not the fragment that is due, or breaks a limit, or
  is the last one. -/
  | ended (own : op.key? = some a.key)
    (finished : ¬ (a.addAll (op.pushedUnder? a.key).toList).Unfinished r.limit)
    (gone : (r.step op).next.find? a.key = none)
    (answer : (r.step op).result ≠ .pushed (.ok none))

theorem Sound.fate (hs : r.Sound) (hfind : r.find? a.key = some a.toPartial)
    (hu : a.Unfinished r.limit) (op : Op) : Fate r a op := by
  by_cases htime : op.now - a.startedAt < r.timeout
  case neg =>
    refine .overdue (Nat.not_lt.mp htime) (Option.eq_none_iff_forall_ne_some.mpr fun p hp => ?_)
    obtain ⟨hp, hin⟩ := hs.find?_live_eq_some_iff.mp hp
    rw [hfind] at hp
    cases hp
    exact htime hin
  have hlive : (r.live op.now).find? a.key = some a.toPartial :=
    hs.find?_live_eq_some_iff.mpr ⟨hfind, htime⟩
  by_cases hown : op.key? = some a.key
  case neg =>
    have hnone := Op.pushedUnder?_of_ne hown
    refine .goesOn htime hlive ?_ ?_ fun h => absurd h hown
    · rw [hnone, Option.toList_none, Account.addAll_nil]
      exact hu
    · rw [hnone, Option.toList_none, Account.addAll_nil, hs.find?_step_of_ne hown, hlive]
  cases op with
  | sweep now => cases hown
  | push m now =>
    have hpushed := Op.pushedUnder?_push hown now
    by_cases hdue : (a.add m).Unfinished r.limit
    · obtain ⟨hresult, hkept⟩ := hs.push_of_unfinished hlive hdue
      refine .goesOn htime hlive ?_ ?_ fun _ => congrArg Answer.pushed hresult
      · rw [hpushed]
        exact hdue
      · rw [hpushed]
        exact hkept
    · obtain ⟨hresult, hgone⟩ := hs.push_of_not_unfinished hown hlive hu.gathers hdue
      refine .ended hown ?_ hgone fun h => hresult (Answer.pushed.inj h)
      rw [hpushed]
      exact hdue

/-! ## A series over a run -/

/-- The messages that a run pushes under a key. -/
def pushedUnder (k : Key) (ops : List Op) : List Message := ops.filterMap (Op.pushedUnder? k)

theorem pushedUnder_cons (k : Key) (op : Op) (ops : List Op) :
    pushedUnder k (op :: ops) = (op.pushedUnder? k).toList ++ pushedUnder k ops := by
  unfold pushedUnder
  rw [List.filterMap_cons]
  cases op.pushedUnder? k <;> rfl

/-- An operation that ends a series puts another one in its place, if any. -/
theorem origin_ne {n place : Nat} (hplace : n < place) {op : Op}
    (h : (r.live op.now).find? k = none ∨ (r.step op).next.find? k = none) :
    r.origin k place (some n) op ≠ some n := by
  unfold origin
  cases hnext : (r.step op).next.find? k with
  | none => simp
  | some p =>
    rw [h.resolve_right (by simp [hnext])]
    simpa using Nat.ne_of_gt hplace

/-- A series that is held stays so over the operations that come in time, as long as what is pushed
under its key leaves it unfinished; and that is as long as it is answered with `none`. -/
theorem Sound.originAll_eq_iff (hs : r.Sound) (hfind : r.find? a.key = some a.toPartial)
    (hu : a.Unfinished r.limit) {n place : Nat} (hplace : n < place) (ops : List Op) :
    (r.originAll a.key place (some n) ops = some n ↔
      (∀ op ∈ ops, op.now - a.startedAt < r.timeout) ∧
        (a.addAll (pushedUnder a.key ops)).Unfinished r.limit) ∧
    (r.originAll a.key place (some n) ops = some n ↔
      (∀ op ∈ ops, op.now - a.startedAt < r.timeout) ∧
        ∀ x ∈ answersUnder a.key ops (r.run ops).1, x = .pushed (.ok none)) ∧
    (r.originAll a.key place (some n) ops = some n →
      (r.run ops).2.find? a.key = some (a.addAll (pushedUnder a.key ops)).toPartial) := by
  -- The account grows with the pushes. Once the series is over, neither side holds any more.
  induction ops generalizing r a place with
  | nil => simp [originAll, pushedUnder, hu, hfind]
  | cons op ops ih =>
    have hlater := Nat.lt_succ_of_lt hplace
    rw [originAll, run_cons, pushedUnder_cons, Account.addAll_append, answersUnder_cons]
    simp only [List.forall_mem_cons]
    cases hs.fate hfind hu op with
    | goesOn inTime found unfinished kept answer =>
      have horigin : r.origin a.key place (some n) op = some n := by
        simp only [origin, found, kept]
      obtain ⟨hlimit, htimeout⟩ := hs.limits_step op
      have hnext := ih (a := a.addAll (op.pushedUnder? a.key).toList) (hs.step op) kept
        (hlimit ▸ unfinished) hlater
      rw [hlimit, htimeout] at hnext
      obtain ⟨hdue, hanswered, hkept⟩ := hnext
      rw [horigin]
      refine ⟨?_, ?_, hkept⟩
      · rw [and_iff_right inTime]
        exact hdue
      · by_cases hown : op.key? = some a.key
        · rw [if_pos hown, List.forall_mem_cons, and_iff_right inTime, answer hown,
            and_iff_right rfl]
          exact hanswered
        · rw [if_neg hown, and_iff_right inTime]
          exact hanswered
    | overdue late gone =>
      have hover :=
        originAll_ne (k := a.key) (origin_ne hplace (.inl gone)) hlater (r.step op).next ops
      have hlate := Nat.not_lt.mpr late
      exact ⟨⟨fun h => absurd h hover, fun h => absurd h.1.1 hlate⟩,
        ⟨fun h => absurd h hover, fun h => absurd h.1.1 hlate⟩, fun h => absurd h hover⟩
    | ended own finished gone answer =>
      have hover :=
        originAll_ne (k := a.key) (origin_ne hplace (.inr gone)) hlater (r.step op).next ops
      rw [if_pos own]
      exact ⟨⟨fun h => absurd h hover, fun h => absurd (h.2.of_addAll _) finished⟩,
        ⟨fun h => absurd h hover, fun h => absurd (h.2 _ List.mem_cons_self) answer⟩,
        fun h => absurd h hover⟩

/-! ## Where a series starts -/

/-- The message is a first fragment under `k`, and is kept for want of others. -/
structure Founds (r : Reassembler) (m : Message) (now : Nat) (k : Key) : Prop where
  key : m.key? = some k
  zero : ∃ p, m.position = .ok p ∧ p.current = 0
  answer : (r.push m now).result = .ok none

theorem Sound.founded (hs : r.Sound) (h : Founds r m now k) :
    (r.live now).find? k = none ∧
      (r.step (.push m now)).next.find? k = some (⟨k, now, m, []⟩ : Account).toPartial ∧
      (⟨k, now, m, []⟩ : Account).Unfinished r.limit := by
  obtain ⟨p, hp, h0⟩ := h.zero
  have haccepted := hs.accepted_push h.key now
  rw [h.answer] at haccepted
  generalize (r.step (.push m now)).next = next at haccepted ⊢
  cases haccepted with
  | @pending q payload startedAt taken fits word incomplete =>
    cases hfind : (r.live now).find? k with
    | none =>
      rw [hfind] at taken
      obtain ⟨hentry, hgathers⟩ := taken.toPartial_first
      refine ⟨rfl, ?_, Account.unfinished_of_toPartial hgathers hentry incomplete fits word⟩
      rw [hentry]
      exact find?_keep_without (r.live now) ⟨k, k.series q payload, startedAt⟩
    | some old =>
      -- A fragment that continues a series has another index.
      exfalso
      rw [hfind] at taken
      cases taken with
      | next carries _ due =>
        rw [carries.position] at hp
        cases hp
        rw [h0] at due
        cases due

/-- What is held under a key in a run was started by a first fragment, in a place that `startOf`
tells. -/
theorem exists_founds (limit : Limit) (timeout : Nat) (k : Key) {ops : List Op} {e : Partial}
    (h : ((new limit timeout).run ops).2.find? k = some e) :
    ∃ before first t₀ later, ops = before ++ .push first t₀ :: later ∧
      Founds ((new limit timeout).run before).2 first t₀ k ∧
      startOf limit timeout k ops = some before.length := by
  -- From the last operation back: it goes on with a series that was there, or starts this one.
  induction ops using List.reverseRecOn generalizing e with
  | nil => cases h
  | append_singleton ops op ih =>
    have hs : ((new limit timeout).run ops).2.Sound := (Reachable.new.run ops).sound
    rw [run_append] at h
    change (((new limit timeout).run ops).2.step op).next.find? k = some e at h
    rw [startOf_concat]
    generalize hr : ((new limit timeout).run ops).2 = r at h hs ih ⊢
    cases hlive : (r.live op.now).find? k with
    | some old =>
      obtain ⟨before, first, t₀, later, rfl, hfounds, hstart⟩ :=
        ih (hs.find?_live_eq_some_iff.mp hlive).1
      refine ⟨before, first, t₀, later ++ [op], by simp, hfounds, ?_⟩
      simp only [origin, hlive, h, hstart]
    | none =>
      by_cases hown : op.key? = some k
      case neg =>
        rw [hs.find?_step_of_ne hown, hlive] at h
        cases h
      cases op with
      | sweep now => cases hown
      | push m now =>
        refine ⟨ops, m, now, [], rfl, ?_, by simp only [origin, hlive, h]⟩
        rw [hr]
        have haccepted := hs.accepted_push hown now
        change (r.live now).find? k = none at hlive
        generalize hresult : (r.push m now).result = result,
          (r.step (.push m now)).next = next at haccepted h
        cases haccepted with
        | refused => rw [find?_without] at h; cases h
        | last => rw [find?_without] at h; cases h
        | pending taken =>
          rw [hlive] at taken
          cases taken with
          | first carries zero => exact ⟨hown, ⟨_, carries.position, zero⟩, hresult⟩

theorem startOf_eq_none_iff {limit : Limit} {timeout : Nat} {ops : List Op} :
    startOf limit timeout k ops = none ↔ ((new limit timeout).run ops).2.find? k = none := by
  constructor
  · intro hnone
    rw [Option.eq_none_iff_forall_ne_some]
    intro e he
    obtain ⟨before, -, -, -, -, -, hstart⟩ := exists_founds limit timeout k he
    rw [hnone] at hstart
    cases hstart
  · intro hnone
    cases ops using List.reverseRecOn with
    | nil => rfl
    | append_singleton ops op =>
      rw [run_append] at hnone
      change (((new limit timeout).run ops).2.step op).next.find? k = none at hnone
      simp only [startOf_concat, origin, hnone]

section Founded

variable {limit : Limit} {timeout : Nat} {before : List Op} {first : Message} {t₀ : Nat}

theorem Founds.startOf_concat (h : Founds ((new limit timeout).run before).2 first t₀ k) :
    startOf limit timeout k (before ++ [.push first t₀]) = some before.length := by
  have hreached : Reachable limit timeout ((new limit timeout).run before).2 :=
    Reachable.new.run before
  obtain ⟨hlive, hfind, -⟩ := hreached.sound.founded h
  rw [Reassembler.startOf_concat]
  simp only [origin, Op.now, hlive, hfind]

/-- The series that a first fragment starts, over the operations that follow it. -/
theorem Founds.startOf_eq_iff (h : Founds ((new limit timeout).run before).2 first t₀ k)
    (later : List Op) :
    let ops := before ++ .push first t₀ :: later
    let started := ((new limit timeout).run (before ++ [.push first t₀])).2
    let series : Account := ⟨k, t₀, first, pushedUnder k later⟩
    (startOf limit timeout k ops = some before.length ↔
        (∀ op ∈ later, op.now - t₀ < timeout) ∧ series.Unfinished limit) ∧
      (startOf limit timeout k ops = some before.length ↔
        (∀ op ∈ later, op.now - t₀ < timeout) ∧
          ∀ x ∈ answersUnder k later (started.run later).1, x = .pushed (.ok none)) ∧
      (startOf limit timeout k ops = some before.length →
        ((new limit timeout).run ops).2.find? k = some series.toPartial) := by
  intro ops started series
  have hreached : Reachable limit timeout ((new limit timeout).run before).2 :=
    Reachable.new.run before
  have hreached' : Reachable limit timeout started := Reachable.new.run _
  obtain ⟨hlimit, htimeout⟩ := hreached'.limits
  have hstarted : started = (((new limit timeout).run before).2.step (.push first t₀)).next := by
    show ((new limit timeout).run (before ++ [.push first t₀])).2 = _
    rw [run_append]
    rfl
  obtain ⟨-, hfind, hunfinished⟩ := hreached.sound.founded h
  rw [hreached.limits.1, ← hlimit] at hunfinished
  rw [← hstarted] at hfind
  have hseries := hreached'.sound.originAll_eq_iff hfind hunfinished
    (Nat.lt_succ_self before.length) later
  have hstart : startOf limit timeout k ops =
      started.originAll k (before.length + 1) (some before.length) later := by
    show startOf limit timeout k (before ++ .push first t₀ :: later) = _
    rw [List.append_cons, startOf, originAll_append, Nat.zero_add, ← startOf, h.startOf_concat,
      List.length_append, List.length_singleton]
  have hrun : ((new limit timeout).run ops).2 = (started.run later).2 := by
    show ((new limit timeout).run (before ++ .push first t₀ :: later)).2 = _
    rw [List.append_cons, run_append]
  rw [hlimit, htimeout] at hseries
  rw [hstart, hrun]
  exact hseries

end Founded

/-! ## What is delivered -/

/-- How the message `x` comes about when `last` is pushed under `k` after the operations. -/
inductive Arises (limit : Limit) (timeout : Nat) (ops : List Op) (k : Key) (last : Message)
    (now : Nat) (x : Message) : Prop
  /-- It is in one piece. -/
  | alone (carries : last.Carries k .single last.payloadBytes)
    (message : x = k.fragment .single last.payloadBytes)
  /-- It is all of a series that is held. This operation, and those since the first fragment, come
  in time. -/
  | series {before : List Op} {first : Message} {t₀ : Nat} {later : List Op}
    (run : ops = before ++ .push first t₀ :: later)
    (founds : Founds ((new limit timeout).run before).2 first t₀ k)
    (held : startOf limit timeout k ops = some before.length)
    (since : ∀ op ∈ later, op.now - t₀ < timeout) (inTime : now - t₀ < timeout)
    (gathers : Gathers k (first :: pushedUnder k later ++ [last]))
    (yields : (⟨k, t₀, first, pushedUnder k later ++ [last]⟩ : Account).Yields x)

/-- Every message that is returned comes about in one of these ways. -/
theorem Returns.arises {limit : Limit} {timeout : Nat} {ops : List Op} {j : Nat} {x : Message}
    (h : Returns limit timeout ops j k x) :
    ∃ last now, ops[j]? = some (.push last now) ∧
      Arises limit timeout (ops.take j) k last now x := by
  obtain ⟨last, now, hop, hk, hresult⟩ := h.exists_push
  refine ⟨last, now, hop, ?_⟩
  generalize ops.take j = ops at hresult ⊢
  have hreached : Reachable limit timeout ((new limit timeout).run ops).2 := Reachable.new.run ops
  have hs := hreached.sound
  have haccepted := hs.accepted_push hk now
  rw [hresult] at haccepted
  generalize (((new limit timeout).run ops).2.step (.push last now)).next = next at haccepted
  cases haccepted with
  | @last p payload startedAt taken fits word complete =>
    cases hlive : (((new limit timeout).run ops).2.live now).find? k with
    | none =>
      rw [hlive] at taken
      cases taken with
      | first carries zero =>
        obtain rfl := carries.payload_eq
        have hsingle : p = .single := by
          obtain ⟨total, current⟩ := p
          dsimp only at zero complete
          subst zero
          obtain rfl : total = 1 := UInt32.toNat_inj.mp complete.symm
          rfl
        exact .alone (hsingle ▸ carries) rfl
    | some e =>
      obtain ⟨hfind, htime⟩ := hs.find?_live_eq_some_iff.mp hlive
      rw [hreached.limits.2] at htime
      obtain ⟨before, first, t₀, later, rfl, hfounds, hstart⟩ := exists_founds limit timeout k hfind
      obtain ⟨hdue, -, hkept⟩ := hfounds.startOf_eq_iff later
      obtain ⟨hsince, hunfinished⟩ := hdue.mp hstart
      have hentry := hkept hstart
      rw [hfind] at hentry
      obtain rfl := Option.some.inj hentry
      rw [hlive] at taken
      obtain ⟨hjoined, hgathers⟩ := taken.toPartial_next hunfinished.gathers
      exact .series rfl hfounds hstart hsince htime hgathers
        (Account.yields_of_toPartial hgathers hjoined complete).1

/-- In time with a timeout of zero there is no operation, so no series is completed. -/
theorem Arises.alone_of_zero {limit : Limit} {ops : List Op} {last x : Message}
    (h : Arises limit 0 ops k last now x) :
    last.Carries k .single last.payloadBytes ∧ x = k.fragment .single last.payloadBytes := by
  cases h with
  | alone carries message => exact ⟨carries, message⟩
  | series _ _ _ _ inTime => exact absurd inTime (Nat.not_lt_zero _)

/-- In every run, whatever comes in and whatever the clock reads: a series is held as long as every
operation reads less than the timeout after its first fragment, and every push under its key since
is the fragment that is due, within the limits and not the last one; that is as long as these pushes
are answered with `none`. It keeps the reading at its first fragment. A message in more than one
piece is delivered only from a series that is held, by an operation in time; with a timeout of zero
there is no such message. -/
theorem series_lifetime (limit : Limit) (timeout : Nat) :
    (∀ k ops, startOf limit timeout k ops = none ↔
      ((new limit timeout).run ops).2.find? k = none) ∧
    (∀ before first t₀ k, Founds ((new limit timeout).run before).2 first t₀ k → ∀ later,
      let ops := before ++ .push first t₀ :: later
      let started := ((new limit timeout).run (before ++ [.push first t₀])).2
      let series : Account := ⟨k, t₀, first, pushedUnder k later⟩
      (startOf limit timeout k ops = some before.length ↔
          (∀ op ∈ later, op.now - t₀ < timeout) ∧ series.Unfinished limit) ∧
        (startOf limit timeout k ops = some before.length ↔
          (∀ op ∈ later, op.now - t₀ < timeout) ∧
            ∀ x ∈ answersUnder k later (started.run later).1, x = .pushed (.ok none)) ∧
        (startOf limit timeout k ops = some before.length →
          ((new limit timeout).run ops).2.find? k = some series.toPartial)) ∧
    (∀ ops j k x, Returns limit timeout ops j k x →
      ∃ last now, ops[j]? = some (.push last now) ∧
        Arises limit timeout (ops.take j) k last now x) ∧
    (timeout = 0 → ∀ ops j k x, Returns limit timeout ops j k x →
      ∃ last now, ops[j]? = some (.push last now) ∧
        last.Carries k .single last.payloadBytes ∧ x = k.fragment .single last.payloadBytes) := by
  refine ⟨fun k ops => startOf_eq_none_iff, fun before first t₀ k h later => h.startOf_eq_iff later,
    fun ops j k x h => h.arises, ?_⟩
  rintro rfl ops j k x h
  obtain ⟨last, now, hop, harises⟩ := h.arises
  exact ⟨last, now, hop, harises.alone_of_zero⟩

/-- A clock that runs backwards and up to the last reading in time, bytes that are no message, and a
fragment that announces another number. -/
def backwards : List Op :=
  [.sweep 90, .push (Key.fragment ⟨.command, 7⟩ ⟨3, 0⟩ [1]) 100, .push ⟨[3, 0]⟩ 40,
    .push (Key.fragment ⟨.command, 7⟩ ⟨9, 1⟩ [2]) 199, .sweep 150]

/-- With the last fragment the message is delivered. At the next reading the first fragment starts
another series, although the one that is due has not come. -/
theorem series_lifetime_backwards :
    let k : Key := ⟨.command, 7⟩
    let first : Message := k.fragment ⟨3, 0⟩ [1]
    let series : Account := ⟨k, 100, first, [k.fragment ⟨9, 1⟩ [2]]⟩
    startOf ⟨64, by decide⟩ 100 k backwards = some 1 ∧ series.Unfinished ⟨64, by decide⟩ ∧
      ((new ⟨64, by decide⟩ 100).run backwards).2.find? k = some series.toPartial ∧
      startOf ⟨64, by decide⟩ 100 k (backwards ++ [.push first 200]) = some 5 ∧
      Arises ⟨64, by decide⟩ 100 backwards k (k.fragment ⟨3, 2⟩ [3]) 199
        (k.fragment .single [1, 2, 3]) := by
  intro k first series
  obtain ⟨-, hheld, harises, -⟩ := series_lifetime ⟨64, by decide⟩ 100
  have hfounds : Founds ((new ⟨64, by decide⟩ 100).run [.sweep 90]).2 first 100 k :=
    ⟨by decide, ⟨⟨3, 0⟩, by decide, rfl⟩, by decide⟩
  have hstart : startOf ⟨64, by decide⟩ 100 k backwards = some 1 := by decide
  obtain ⟨hdue, -, hkept⟩ := hheld [.sweep 90] first 100 k hfounds (backwards.drop 2)
  have hreturns : Returns ⟨64, by decide⟩ 100
      (backwards ++ [.push (Key.fragment ⟨.command, 7⟩ ⟨3, 2⟩ [3]) 199]) 5 ⟨.command, 7⟩
      (Key.fragment ⟨.command, 7⟩ .single [1, 2, 3]) := ⟨_, _, _, rfl, by decide, rfl⟩
  obtain ⟨last, now, hop, h⟩ := harises _ 5 k _ hreturns
  obtain ⟨rfl, rfl⟩ := Op.push.inj (Option.some.inj hop)
  exact ⟨hstart, (hdue.mp hstart).2, hkept hstart, by decide, h⟩

end Reassembler

end Mbim
