import Mbim.Proofs.Reassembler.Slice

/-!
# A key without the others

What is pushed under one key is answered as if nothing else came: neither pushes under other keys
nor sweeps play a part, as long as the clock does not run backwards.

The states of the two runs may differ. A push under another key also sweeps, and without it a
partial message whose time is over is still there. It is gone before the next push under its key
looks it up, because that push sweeps first.

* `Reassembler.live_live`: of two sweeps only the later one counts.
* `Reassembler.Agree`: two reassemblers hold the same once swept. They stay so as time goes by
  (`Agree.mono`), answer a push alike (`Agree.push`), and a sweep of one of them changes nothing
  (`Agree.live`).
* `Reassembler.answersUnder_run_eq_alone`: the pushes under one key are answered as they are alone.
-/

namespace Mbim

theorem Partial.isExpired_mono {p : Partial} {timeout t t' : Nat} (h : t ≤ t')
    (hp : p.isExpired timeout t) : p.isExpired timeout t' := by
  unfold isExpired at hp ⊢
  rw [decide_eq_true_eq] at hp ⊢
  omega

namespace Reassembler

/-- Of two sweeps only the later one counts. -/
theorem live_live (r : Reassembler) {t t' : Nat} (h : t ≤ t') : (r.live t).live t' = r.live t' := by
  simp only [live, List.filter_filter]
  congr 1
  refine List.filter_congr fun p _ => ?_
  by_cases hp : p.isExpired r.timeout t
  · simp [hp, Partial.isExpired_mono h hp]
  · simp [hp]

/-- Once swept at `t`, the two hold the same. -/
def Agree (t : Nat) (r r' : Reassembler) : Prop := r.live t = r'.live t

namespace Agree

variable {t t' : Nat} {r r' : Reassembler}

theorem refl (t : Nat) (r : Reassembler) : Agree t r r := Eq.refl _

theorem mono (h : Agree t r r') (ht : t ≤ t') : Agree t' r r' := by
  unfold Agree at h ⊢
  rw [← r.live_live ht, ← r'.live_live ht, h]

/-- A sweep takes nothing away that the other still has. -/
theorem live (h : Agree t r r') : Agree t (r.live t) r' := by
  unfold Agree at h ⊢
  rw [r.live_live (Nat.le_refl t), h]

/-- A push finds the same in both, and leaves the same. -/
theorem push (h : Agree t r r') (hs : r.Sound) (hs' : r'.Sound) (m : Message) :
    (r.push m t).result = (r'.push m t).result ∧ (r.push m t).next = (r'.push m t).next := by
  unfold Agree at h
  rw [hs.push_eq, hs'.push_eq, h]
  exact ⟨rfl, rfl⟩

end Agree

/-- From reassemblers that agree on `k`, the pushes under `k` are answered alike, be they among
other operations or alone. -/
theorem Agree.answersUnder_run {t : Nat} {k : Key} {r r' : Reassembler}
    (h : Agree t (r.only k) r') (hs : r.Sound) (hs' : r'.Sound) {ops : List Op}
    (hstart : ∀ op ∈ ops, t ≤ op.now) (hclock : (ops.map Op.now).Pairwise (· ≤ ·)) :
    answersUnder k ops (r.run ops).1 =
      (r'.run (ops.filter fun op => op.key? == some k)).1.map Prod.fst := by
  induction ops generalizing t r r' with
  | nil => rfl
  | cons op ops ih =>
    rw [List.map_cons, List.pairwise_cons] at hclock
    have hlater : ∀ op' ∈ ops, op.now ≤ op'.now :=
      fun op' hop' => hclock.1 _ (List.mem_map_of_mem hop')
    have hnow : Agree op.now (r.only k) r' := h.mono (hstart op List.mem_cons_self)
    have hstep := hs.step_only k op
    rw [run_cons, answersUnder_cons]
    by_cases hk : op.key? = some k
    · -- The push is in both runs. It restores the agreement that it needs.
      rw [if_pos hk, List.filter_cons_of_pos (by simp [hk]), run_cons, List.map_cons]
      rw [Op.seenFrom_of_key? hk] at hstep
      rw [← hs.result_step_only hk]
      cases op with
      | sweep now => cases hk
      | push m now =>
        obtain ⟨hresult, hnext⟩ := hnow.push (hs.only k) hs' m
        have hagree :
            Agree now ((r.step (.push m now)).next.only k) (r'.step (.push m now)).next := by
          rw [← hstep]
          exact congrArg (Reassembler.live · now) hnext
        rw [ih hagree (hs.step _) (hs'.step _) hlater hclock.2]
        exact congrArg (Answer.pushed · :: _) hresult
    · -- The operation is in one run only. Seen from `k` it is a sweep.
      rw [if_neg hk, List.filter_cons_of_neg (by simp [hk])]
      rw [Op.seenFrom_of_ne hk] at hstep
      have hagree : Agree op.now ((r.step op).next.only k) r' := by
        rw [← hstep]
        exact hnow.live
      exact ih hagree (hs.step op) hs' hlater hclock.2

/-- With a clock that does not run backwards, the pushes under one key are answered as they are
alone: without any sweep, and without any push under another key or under none. -/
theorem answersUnder_run_eq_alone (limit : Limit) (timeout : Nat) (k : Key) {ops : List Op}
    (hclock : (ops.map Op.now).Pairwise (· ≤ ·)) :
    answersUnder k ops ((new limit timeout).run ops).1 =
      ((new limit timeout).run (ops.filter fun op => op.key? == some k)).1.map Prod.fst := by
  have hnew := sound_new limit timeout
  have honly : (new limit timeout).only k = new limit timeout := only_of_find?_eq_none rfl
  have hagree : Agree 0 ((new limit timeout).only k) (new limit timeout) := by
    rw [honly]
    exact .refl 0 _
  exact hagree.answersUnder_run hnew hnew (fun _ _ => Nat.zero_le _) hclock

/-- A series that is swept away by a message of no kind before its second fragment comes, and one
that is completed; in between a series of another kind, a sweep and a message without fragments. -/
def overdue : List Op :=
  [.push (Key.fragment ⟨.command, 7⟩ ⟨2, 0⟩ [1]) 0,
    .push (Key.fragment ⟨.indication, 7⟩ ⟨2, 0⟩ [9]) 40,
    .push ⟨[3, 0]⟩ 120,
    .push (Key.fragment ⟨.command, 7⟩ ⟨2, 1⟩ [2]) 120,
    .push (Key.fragment ⟨.command, 7⟩ ⟨2, 0⟩ [3]) 130,
    .sweep 200,
    .push (.closeRequest 7) 200,
    .push (Key.fragment ⟨.command, 7⟩ ⟨2, 1⟩ [4]) 229]

theorem answersUnder_run_eq_alone_overdue :
    (overdue.map Op.now).Pairwise (· ≤ ·) ∧
      (overdue.filter fun op => op.key? == some ⟨.command, 7⟩).length = 4 ∧
      answersUnder ⟨.command, 7⟩ overdue ((new ⟨64, by decide⟩ 100).run overdue).1 =
        [.pushed (.ok none), .pushed (.error (.fragment (.outOfSequence ⟨2, 0⟩ ⟨2, 1⟩))),
          .pushed (.ok none),
          .pushed (.ok (some (Key.fragment ⟨.command, 7⟩ .single [3, 4])))] := by
  have hclock : (overdue.map Op.now).Pairwise (· ≤ ·) := by decide
  refine ⟨hclock, by decide, ?_⟩
  rw [answersUnder_run_eq_alone ⟨64, by decide⟩ 100 ⟨.command, 7⟩ hclock]
  decide

end Reassembler

end Mbim
