import Mbim.Proofs.Reassembler.Interleaving

/-!
# After a push that fails

A push that fails costs one series: the one under the key of the message, if it has a key. All
others are what the sweep leaves of them. The key is free then, so the next message under it is put
together, whatever led to the failure.

* `Reassembler.Sound.next_of_error`: what is there after the failure.
* `Reassembler.Reachable.run_of_free`: pushes under a key that is free.
* `Reassembler.Reachable.run_sent`: the pieces of a message under a key that is free.
* `Reassembler.Reachable.push_of_error`: both for every reassembler that runs can lead to.
-/

namespace Mbim

namespace Reassembler

variable {r : Reassembler} {m : Message} {k : Key} {now : Nat}

/-- A push that fails leaves what a sweep leaves, without the series under the key of the
message. -/
theorem Sound.next_of_error (hs : r.Sound) {e : PushError}
    (he : (r.push m now).result = .error e) :
    (r.push m now).next = m.key?.elim (r.live now) (r.live now).without := by
  rw [hs.push_eq] at he ⊢
  simp only [Step.after] at he ⊢
  cases hk : m.key? with
  | none => exact next_accept_of_key?_eq_none hk now
  | some k =>
    have haccepted := (hs.live now).accepted hk now
    rw [he] at haccepted
    generalize ((r.live now).accept m now).next = next at haccepted ⊢
    cases haccepted with
    | refused => rfl

theorem mem_elim_without_iff (r : Reassembler) (m : Message) (now : Nat) {p : Partial} :
    p ∈ (m.key?.elim (r.live now) (r.live now).without).partials ↔
      p ∈ r.partials ∧ p.isExpired r.timeout now = false ∧ m.key? ≠ some p.key := by
  cases hk : m.key? with
  | none => simp [live]
  | some k =>
    have hne : some k ≠ some p.key ↔ p.key ≠ k := by rw [ne_eq, Option.some.injEq, eq_comm]
    rw [hne]
    simp only [Option.elim_some, without, live, List.filter_filter, List.mem_filter,
      Bool.and_eq_true, bne_iff_ne, Bool.not_eq_true', and_comm (a := p.key ≠ k)]

/-! ## The next message -/

/-- Push messages one after the other, each at its clock reading. -/
def pushAll (arrivals : List (Message × Nat)) : List Op := arrivals.map fun e => .push e.1 e.2

theorem pushes_pushAll (arrivals : List (Message × Nat)) :
    pushes (pushAll arrivals) = arrivals := by
  induction arrivals with
  | nil => rfl
  | cons e arrivals ih => exact congrArg (e :: ·) ih

/-- Under a key that is free, pushes are answered as by a reassembler that holds nothing. -/
theorem Reachable.run_of_free {limit : Limit} {timeout : Nat} (hr : Reachable limit timeout r)
    (hfree : r.find? k = none) {ops : List Op} (hkey : ∀ op ∈ ops, op.key? = some k) :
    let free := Reassembler.new limit timeout
    (r.run ops).1.map Prod.fst = (free.run ops).1.map Prod.fst ∧
      (r.run ops).2.find? k = (free.run ops).2.find? k := by
  intro free
  have hown : ops.map (Op.seenFrom k) = ops := by
    rw [List.map_congr_left fun op hop => Op.seenFrom_of_key? (hkey op hop), List.map_id']
  obtain ⟨hlimit, htimeout⟩ := hr.limits
  obtain ⟨honly, hanswers⟩ := hr.sound.run_only k ops
  rw [hown, only_of_find?_eq_none hfree, hlimit, htimeout] at honly hanswers
  rw [← answersUnder_run_of_forall hkey, ← answersUnder_run_of_forall hkey, hanswers, honly,
    find?_only]
  exact ⟨rfl, rfl⟩

/-- The pieces of a message that come in order and in time, under a key that is free, are answered
with the message in one piece. -/
theorem Reachable.run_sent {limit : Limit} {timeout : Nat} (hr : Reachable limit timeout r)
    (hfree : r.find? k = none) {whole : Message} {arrivals : List (Message × Nat)}
    (hsent : Sent limit k whole (arrivals.map Prod.fst))
    (hclock : (arrivals.map Prod.snd).Pairwise (· ≤ ·))
    (htime : arrivals.length = 1 ∨ InTime timeout (arrivals.map Prod.snd)) :
    (r.run (pushAll arrivals)).1.map Prod.fst =
        seriesAnswers (arrivals.length - 1) whole.collapsed ∧
      (r.run (pushAll arrivals)).2.find? k = none := by
  obtain ⟨total, parts, hms, hne, hlen, hword, hcollapsed⟩ :=
    hsent.given.exists_fragments hsent.valid hsent.key
  have hkey : ∀ op ∈ pushAll arrivals, op.key? = some k := by
    intro op hop
    obtain ⟨e, he, rfl⟩ := List.mem_map.mp hop
    exact hms.key? (List.mem_map_of_mem he)
  have htime' : (arrivals.map Prod.fst).length = 1 ∨
      ∀ e ∈ arrivals, ∀ e' ∈ arrivals, e'.2 - e.2 < timeout := by
    rw [List.length_map]
    refine htime.imp_right fun hin e he e' he' => ?_
    exact hin.sub_lt hclock (List.mem_map_of_mem he) (List.mem_map_of_mem he')
  obtain ⟨hnext, hrun⟩ := run_fragments limit timeout hms hne (by rw [pushes_pushAll])
    (by simpa [pushAll, List.map_map, Function.comp_def, Op.now] using hclock)
    (by rw [pushes_pushAll]; exact htime') (by have := hsent.fits; omega) hword
  obtain ⟨hanswers, hfound⟩ := hr.run_of_free hfree hkey
  rw [hanswers, hfound, hnext, ← answersUnder_run_of_forall hkey, hrun, hcollapsed,
    List.length_map]
  exact ⟨rfl, rfl⟩

/-- A push that fails leaves what a sweep at the same reading leaves, without the series under the
key of the message, if it has one; all other partial messages are as they were. From then on the
next message with this key is put together when its pieces come in order and in time, whatever was
there before. -/
theorem Reachable.push_of_error {limit : Limit} {timeout : Nat} (hr : Reachable limit timeout r)
    {e : PushError} (he : (r.push m now).result = .error e) :
    let swept := (r.step (.sweep now)).next
    let next := (r.push m now).next
    next = m.key?.elim swept swept.without ∧
      (∀ p, p ∈ next.partials ↔
        p ∈ r.partials ∧ p.isExpired timeout now = false ∧ m.key? ≠ some p.key) ∧
      ∀ k, m.key? = some k → ∀ whole arrivals, Sent limit k whole (arrivals.map Prod.fst) →
        (arrivals.map Prod.snd).Pairwise (· ≤ ·) →
        (arrivals.length = 1 ∨ InTime timeout (arrivals.map Prod.snd)) →
        (next.run (pushAll arrivals)).1.map Prod.fst =
            seriesAnswers (arrivals.length - 1) whole.collapsed ∧
          (next.run (pushAll arrivals)).2.find? k = none := by
  intro swept next
  have hnext : next = m.key?.elim swept swept.without := hr.sound.next_of_error he
  refine ⟨hnext, fun p => ?_, fun k hk whole arrivals hsent hclock htime => ?_⟩
  · rw [hnext, ← hr.limits.2]
    exact mem_elim_without_iff r m now
  · have hreached : Reachable limit timeout next := hr.step (.push m now)
    refine hreached.run_sent ?_ hsent hclock htime
    rw [hnext, hk]
    exact find?_without swept k

/-- A series whose time is over, one that gets a fragment too early, and one that is left alone. -/
def derailed : List Op :=
  [.push (Key.fragment ⟨.indication, 7⟩ ⟨2, 0⟩ [8]) 0,
    .push (Key.fragment ⟨.command, 7⟩ ⟨3, 0⟩ [9]) 50,
    .push (Key.fragment ⟨.commandDone, 7⟩ ⟨2, 0⟩ []) 60]

theorem push_of_error_derailed :
    let r := ((new ⟨64, by decide⟩ 100).run derailed).2
    let next := (r.push (Key.fragment ⟨.command, 7⟩ ⟨3, 2⟩ [9]) 100).next
    let arrivals : List (Message × Nat) :=
      [(Key.fragment ⟨.command, 7⟩ ⟨2, 0⟩ [1, 2], 100),
        (Key.fragment ⟨.command, 7⟩ ⟨2, 1⟩ [3], 199)]
    r.size = 3 ∧ next = (r.live 100).without ⟨.command, 7⟩ ∧ next.size = 1 ∧
      (next.run (pushAll arrivals)).1.map Prod.fst =
        [.pushed (.ok none),
          .pushed (.ok (some (Key.fragment ⟨.command, 7⟩ .single [1, 2, 3])))] := by
  intro r next arrivals
  have hr : Reachable ⟨64, by decide⟩ 100 r := Reachable.new.run derailed
  have he : (r.push (Key.fragment ⟨.command, 7⟩ ⟨3, 2⟩ [9]) 100).result =
      .error (.fragment (.outOfSequence ⟨3, 1⟩ ⟨3, 2⟩)) := by decide
  obtain ⟨hnext, -, hrecovers⟩ := hr.push_of_error he
  have hsent : Sent ⟨64, by decide⟩ ⟨.command, 7⟩ (Key.fragment ⟨.command, 7⟩ .single [1, 2, 3])
      (arrivals.map Prod.fst) :=
    ⟨by decide, by decide, by decide, .split ⟨22, by decide⟩ rfl rfl⟩
  have htime : InTime 100 (arrivals.map Prod.snd) := by
    intro first hfirst last hlast
    cases hfirst
    cases hlast
    decide
  obtain ⟨hanswers, -⟩ :=
    hrecovers ⟨.command, 7⟩ rfl _ arrivals hsent (by decide) (.inr htime)
  exact ⟨by decide, hnext, by decide, hanswers⟩

end Reassembler

end Mbim
