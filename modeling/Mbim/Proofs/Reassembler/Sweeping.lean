import Mbim.Proofs.Reassembler.Independence
import Mbim.Proofs.Reassembler.Lifetime

/-!
# Sweeps

A sweep forgets the partial messages whose time is over, and nothing else. So it does not matter how
often a caller sweeps: a sweep and a later one forget together what the later one alone forgets, and
a sweep in front of a push forgets what the push would have forgotten.

* `Partial.age`: how long a partial message has been kept; `Partial.isExpired_iff`: its time is over
  when it is as old as the timeout.
* `Reassembler.Sound.count_expired`: how often a sweep answers with one transaction id.
* `Reassembler.live_live`, `Reassembler.expired_append_expired_live`: what two sweeps leave, and
  what they forget.
* `Reassembler.Sound.push_after_sweep`: a push behind a sweep. `Reassembler.Sound.run_sweeps`: any
  number of sweeps.
* `Reassembler.Reachable.sweep_exact`: all of it, for every reassembler that runs can lead to.
-/

namespace Mbim

namespace Partial

variable {p : Partial} {timeout now : Nat}

/-- How long the partial message has been kept. A clock that runs backwards counts as no time. -/
def age (p : Partial) (now : Nat) : Int := max ((now : Int) - p.startedAt) 0

theorem isExpired_iff : p.isExpired timeout now ↔ (timeout : Int) ≤ p.age now := by
  unfold isExpired age
  rw [decide_eq_true_eq]
  omega

theorem isExpired_eq_false_iff : p.isExpired timeout now = false ↔ p.age now < timeout := by
  rw [← Bool.not_eq_true, isExpired_iff, Int.not_le]

end Partial

namespace Reassembler

variable {r : Reassembler} {t t' : Nat} {ε : Type}

/-! ## One sweep -/

/-- Whether there is a partial message under the key, as old as the timeout. -/
def isOverdue (r : Reassembler) (now : Nat) (k : Key) : Bool :=
  (r.find? k).any fun p => decide ((r.timeout : Int) ≤ p.age now)

theorem mem_expired_iff {p : Partial} :
    p ∈ r.expired t ↔ p ∈ r.partials ∧ (r.timeout : Int) ≤ p.age t := by
  rw [expired, List.mem_filter, Partial.isExpired_iff]

theorem mem_live_iff {p : Partial} :
    p ∈ (r.live t).partials ↔ p ∈ r.partials ∧ p.age t < r.timeout := by
  rw [live, List.mem_filter, Bool.not_eq_true', Partial.isExpired_eq_false_iff]

/-- What is forgotten and what is kept is all there was. -/
theorem expired_append_live (r : Reassembler) (t : Nat) :
    (r.expired t ++ (r.live t).partials).Perm r.partials := by
  unfold expired live
  exact List.filter_append_perm _ _

/-- A sweep of sound partial messages answers with the transaction ids of those it forgets. -/
theorem Sound.sweep_eq (hs : r.Sound) (t : Nat) :
    (r.sweep t : Step Reassembler (Outcome ε (List UInt32))) =
      ⟨.ok ((r.expired t).map fun p => p.key.transaction), r.live t, expiries (r.expired t)⟩ := by
  rw [← hs.sweep_result t]
  rfl

theorem Sound.isOverdue_iff (hs : r.Sound) {k : Key} :
    r.isOverdue t k ↔ ∃ p ∈ r.expired t, p.key = k := by
  unfold isOverdue
  rw [Option.any_eq_true]
  constructor
  · rintro ⟨p, hfind, hage⟩
    obtain ⟨hp, hkey⟩ := mem_of_find? hfind
    exact ⟨p, mem_expired_iff.mpr ⟨hp, of_decide_eq_true hage⟩, hkey⟩
  · rintro ⟨p, hp, hkey⟩
    obtain ⟨hp, hage⟩ := mem_expired_iff.mp hp
    exact ⟨p, hs.find?_eq_some_iff.mpr ⟨hp, hkey⟩, decide_eq_true hage⟩

/-- A sweep answers with a transaction id once for every kind with an overdue message under it. -/
theorem Sound.count_expired (hs : r.Sound) (t : Nat) (id : UInt32) :
    ((r.expired t).map fun p => p.key.transaction).count id =
      Kind.known.countP fun kind => r.isOverdue t ⟨kind, id⟩ := by
  have hpartials : ∀ p ∈ (r.expired t).filter fun p => p.key.transaction == id,
      p ∈ r.expired t ∧ p.key.transaction = id := by
    intro p hp
    rw [List.mem_filter, beq_iff_eq] at hp
    exact hp
  -- Under one id the kind tells the messages apart, so counting them is counting kinds.
  have hinj : ∀ p ∈ (r.expired t).filter fun p => p.key.transaction == id,
      ∀ q ∈ (r.expired t).filter fun p => p.key.transaction == id,
        p.key.kind = q.key.kind → p = q := by
    intro p hp q hq hkind
    obtain ⟨hp, hpid⟩ := hpartials p hp
    obtain ⟨hq, hqid⟩ := hpartials q hq
    have hkey : p.key = q.key := by
      rw [show p.key = ⟨p.key.kind, p.key.transaction⟩ from rfl, hkind, hpid, ← hqid]
    exact hs.eq_of_key_eq (mem_expired_iff.mp hp).1 (mem_expired_iff.mp hq).1 hkey
  have hnodup : (r.expired t).Nodup := (List.Nodup.of_map _ hs.nodup).filter _
  have hperm :
      (((r.expired t).filter fun p => p.key.transaction == id).map fun p => p.key.kind).Perm
        (Kind.known.filter fun kind => r.isOverdue t ⟨kind, id⟩) := by
    rw [List.perm_ext_iff_of_nodup (List.Nodup.map_on hinj (hnodup.filter _))
      (List.Nodup.filter _ (by decide))]
    intro kind
    rw [List.mem_map, List.mem_filter, hs.isOverdue_iff]
    constructor
    · rintro ⟨p, hp, rfl⟩
      obtain ⟨hexpired, hid⟩ := hpartials p hp
      have hkind := (hs.sound p (mem_expired_iff.mp hexpired).1).1
      exact ⟨Kind.mem_known_of_isFragment hkind, p, hexpired, by rw [← hid]⟩
    · rintro ⟨-, p, hp, hkey⟩
      refine ⟨p, List.mem_filter.mpr ⟨hp, ?_⟩, ?_⟩
      · rw [hkey, beq_self_eq_true]
      · rw [hkey]
  rw [List.count_eq_countP, List.countP_map, List.countP_eq_length_filter,
    List.countP_eq_length_filter, ← hperm.length_eq, List.length_map]
  rfl

/-! ## Two sweeps -/

/-- A sweep and a later one forget what the later one alone forgets. -/
theorem expired_append_expired_live (r : Reassembler) (h : t ≤ t') :
    (r.expired t ++ (r.live t).expired t').Perm (r.expired t') := by
  have hearly : (r.expired t').filter (fun p => p.isExpired r.timeout t) = r.expired t := by
    rw [expired, expired, List.filter_filter]
    refine List.filter_congr fun p _ => ?_
    by_cases hp : p.isExpired r.timeout t
    · simp [hp, Partial.isExpired_mono h hp]
    · simp [hp]
  have hlate : (r.expired t').filter (fun p => !p.isExpired r.timeout t) =
      (r.live t).expired t' := by
    simp only [expired, live, List.filter_filter, Bool.and_comm]
  rw [← hearly, ← hlate]
  exact List.filter_append_perm _ _

theorem expired_live (r : Reassembler) (t : Nat) : (r.live t).expired t = [] :=
  expired_eq_nil (r.live_live (Nat.le_refl t))

/-- A sweep that forgets nothing has nothing to tell. -/
theorem Sound.sweep_live (hs : r.Sound) (t : Nat) :
    ((r.live t).sweep t : Step Reassembler (Outcome ε (List UInt32))) =
      ⟨.ok [], r.live t, ∅⟩ := by
  rw [(hs.live t).sweep_eq, r.expired_live, r.live_live (Nat.le_refl t)]
  rfl

/-- What a push forgets does not have to be forgotten by the push. -/
theorem Sound.push_after_sweep (hs : r.Sound) (m : Message) (t : Nat) :
    r.push m t = ((r.live t).push m t).after (expiries (r.expired t)) := by
  have hnothing : ((r.live t).accept m t).after (expiries []) = (r.live t).accept m t := by
    rw [Step.after, show expiries [] = ∅ from rfl, Report.empty_append]
  rw [hs.push_eq, (hs.live t).push_eq, r.live_live (Nat.le_refl t), r.expired_live t, hnothing]

/-! ## Any number of sweeps -/

theorem Sound.step_sweep (hs : r.Sound) (t : Nat) :
    r.step (.sweep t) = ⟨.swept (.ok ((r.expired t).map fun p => p.key.transaction)), r.live t,
      expiries (r.expired t)⟩ := by
  show (⟨.swept (r.sweep t).result, (r.sweep t).next, (r.sweep t).report⟩ : Step _ Answer) = _
  rw [hs.sweep_eq]

/-- However often a caller sweeps before: the latest sweep decides what is left, and all of them
together answer with what the latest one alone would. -/
theorem Sound.run_sweeps (hs : r.Sound) {times : List Nat} {last : Nat}
    (hlast : ∀ t ∈ times, t ≤ last) :
    (r.run ((times ++ [last]).map Op.sweep)).2 = r.live last ∧
      ∃ answers : List (List UInt32),
        (r.run ((times ++ [last]).map Op.sweep)).1.map Prod.fst =
            answers.map (fun ids => .swept (.ok ids)) ∧
          answers.flatten.Perm ((r.expired last).map fun p => p.key.transaction) := by
  induction times generalizing r with
  | nil =>
    refine ⟨rfl, [(r.expired last).map fun p => p.key.transaction], ?_, ?_⟩
    · simp only [List.nil_append, List.map_cons, List.map_nil, run_cons, run_nil, hs.step_sweep]
    · rw [List.flatten_singleton]
  | cons t times ih =>
    have ht : t ≤ last := hlast t List.mem_cons_self
    obtain ⟨hnext, answers, hanswers, hperm⟩ :=
      ih (hs.live t) fun t ht => hlast t (List.mem_cons_of_mem _ ht)
    simp only [List.cons_append, List.map_cons, run_cons, hs.step_sweep]
    refine ⟨hnext.trans (r.live_live ht), _ :: answers, congrArg (_ :: ·) hanswers, ?_⟩
    have hboth := (r.expired_append_expired_live ht).map fun p => p.key.transaction
    rw [List.map_append] at hboth
    exact (hperm.append_left _).trans hboth

/-- A sweep forgets the partial messages as old as the timeout, keeps all others as they are, and
answers with the transaction ids of those that it forgets, once for every kind, and counts them and
nothing else. A sweep and a later one leave what the later one alone leaves, and answer together
with what that one answers. A second sweep at the same reading has no effect, and a push at the same
reading none that it would not have without the sweep. -/
theorem Reachable.sweep_exact {limit : Limit} {timeout : Nat} (hr : Reachable limit timeout r)
    (t : Nat) :
    let sweep (r : Reassembler) (t : Nat) : Step Reassembler (Outcome ε (List UInt32)) := r.sweep t
    let swept := sweep r t
    (∃ gone : List Partial,
      (gone ++ swept.next.partials).Perm r.partials ∧
        (∀ p ∈ gone, (timeout : Int) ≤ p.age t) ∧ (∀ p ∈ swept.next.partials, p.age t < timeout) ∧
        swept.result = .ok (gone.map fun p => p.key.transaction) ∧
        (∀ id, (gone.map fun p => p.key.transaction).count id =
          Kind.known.countP fun kind => r.isOverdue t ⟨kind, id⟩) ∧
        ∀ counter, swept.report.counts.get counter =
          if counter = .dropped .expired then gone.length else 0) ∧
      (∀ t', t ≤ t' → (sweep swept.next t').next = (sweep r t').next ∧
        ∃ early late direct, swept.result = .ok early ∧ (sweep swept.next t').result = .ok late ∧
          (sweep r t').result = .ok direct ∧ (early ++ late).Perm direct ∧
          swept.report.counts + (sweep swept.next t').report.counts =
            (sweep r t').report.counts) ∧
      sweep swept.next t = ⟨.ok [], swept.next, ∅⟩ ∧
      ∀ m, (swept.next.push m t).result = (r.push m t).result ∧
        (swept.next.push m t).next = (r.push m t).next ∧
        swept.report ++ (swept.next.push m t).report = (r.push m t).report := by
  have hs := hr.sound
  obtain ⟨rfl, rfl⟩ := hr.limits
  dsimp only
  rw [hs.sweep_eq]
  refine ⟨⟨r.expired t, r.expired_append_live t, fun p hp => (mem_expired_iff.mp hp).2,
    fun p hp => (mem_live_iff.mp hp).2, rfl, hs.count_expired t, by simp [expiries]⟩,
    fun t' ht => ?_, hs.sweep_live t, fun m => ?_⟩
  · have hboth := r.expired_append_expired_live ht
    have hlength := hboth.length_eq
    rw [List.length_append] at hlength
    rw [(hs.live t).sweep_eq, hs.sweep_eq]
    refine ⟨r.live_live ht, _, _, _, rfl, rfl, rfl, ?_, ?_⟩
    · rw [← List.map_append]
      exact hboth.map _
    · simp only [expiries, Counts.single_add_single, hlength]
  · rw [hs.push_after_sweep m t]
    exact ⟨rfl, rfl, rfl⟩

/-- Two series of different kinds with one transaction id, and a third one that started later. -/
def sharing : List Op :=
  [.push (Key.fragment ⟨.command, 7⟩ ⟨2, 0⟩ [1]) 20,
    .push (Key.fragment ⟨.indication, 7⟩ ⟨2, 0⟩ [9]) 40,
    .push (Key.fragment ⟨.command, 8⟩ ⟨2, 0⟩ []) 90]

theorem sweep_exact_sharing :
    let r := ((new ⟨64, by decide⟩ 100).run sharing).2
    let sweep (r : Reassembler) (t : Nat) : Step Reassembler (Outcome Empty (List UInt32)) :=
      r.sweep t
    let swept := sweep r 120
    Reachable ⟨64, by decide⟩ 100 r ∧ (120 ≤ 150) ∧ r.size = 3 ∧ (sweep r 10).next = r ∧
      swept.result = .ok [7] ∧ (sweep swept.next 150).result = .ok [7] ∧
      (sweep swept.next 150).next = (sweep r 150).next ∧ (sweep r 150).result = .ok [7, 7] ∧
      (Kind.known.countP fun kind => r.isOverdue 150 ⟨kind, 7⟩) = 2 ∧
      (swept.next.push (Key.fragment ⟨.command, 7⟩ ⟨2, 1⟩ [2]) 120).result =
        .error (.fragment (.outOfSequence ⟨2, 0⟩ ⟨2, 1⟩)) := by
  intro r sweep swept
  have hr : Reachable ⟨64, by decide⟩ 100 r := Reachable.new.run sharing
  obtain ⟨-, htwice, -, hpush⟩ := hr.sweep_exact (ε := Empty) 120
  obtain ⟨⟨gone, -, -, -, hresult, hcount, -⟩, -⟩ := hr.sweep_exact (ε := Empty) 150
  have hboth : (sweep r 150).result = .ok [7, 7] := by decide
  have hids : gone.map (fun p => p.key.transaction) = [7, 7] := by
    have := hresult.symm.trans hboth
    exact Outcome.ok.inj this
  have hcounted := hcount 7
  rw [hids] at hcounted
  refine ⟨hr, by decide, by decide, by decide, by decide, by decide, (htwice 150 (by decide)).1,
    hboth, hcounted.symm, ?_⟩
  rw [(hpush _).1]
  decide

end Reassembler

end Mbim
