import Mbim.Proofs.Reassembler.Step

/-!
# One key at a time

The series under one key lives as if it were alone: operations under other keys reach it only
through the sweep that they make.

* `Reassembler.only`: the part of a reassembler under one key; `Op.seenFrom`: what an operation is
  for that key.
* `Reassembler.Sound.step_only`, `Reassembler.Sound.result_step_only`: one operation, seen from a
  key.
* `Reassembler.Sound.run_only`: a run leaves under a key, and answers to its pushes, what the run
  seen from the key does.
-/

namespace Mbim

namespace Reassembler

/-! ## Operations and their keys -/

/-- The key of the series that the operation belongs to. -/
def Op.key? : Op → Option Key
  | push m _ => m.key?
  | sweep _ => none

/-- What the operation is for the series under `k`: it is its own, or sweeps. -/
def Op.seenFrom (k : Key) (op : Op) : Op := if op.key? = some k then op else .sweep op.now

theorem Op.seenFrom_of_key? {k : Key} {op : Op} (h : op.key? = some k) : op.seenFrom k = op := by
  simp [seenFrom, h]

theorem Op.seenFrom_of_ne {k : Key} {op : Op} (h : op.key? ≠ some k) :
    op.seenFrom k = .sweep op.now := by
  simp [seenFrom, h]

@[simp] theorem Op.now_seenFrom (k : Key) (op : Op) : (op.seenFrom k).now = op.now := by
  unfold seenFrom
  split <;> rfl

theorem Op.key?_seenFrom {k : Key} {op : Op} :
    (op.seenFrom k).key? = some k ↔ op.key? = some k := by
  by_cases h : op.key? = some k
  · rw [seenFrom_of_key? h]
  · rw [seenFrom_of_ne h]
    exact iff_of_false (by simp [key?]) h

/-- The answers to those entries of a run that `mine` picks. -/
def answersTo {α : Type} (mine : α → Bool) (entries : List α) (results : List (Answer × Report)) :
    List Answer :=
  ((entries.zip results).filter fun e => mine e.1).map fun e => e.2.1

@[simp] theorem answersTo_cons {α : Type} (mine : α → Bool) (e : α) (es : List α)
    (a : Answer × Report) (as : List (Answer × Report)) :
    answersTo mine (e :: es) (a :: as) =
      if mine e then a.1 :: answersTo mine es as else answersTo mine es as := by
  unfold answersTo
  cases h : mine e <;> simp [h]

/-- The answers to the pushes under a key. -/
def answersUnder (k : Key) : List Op → List (Answer × Report) → List Answer :=
  answersTo fun op => op.key? == some k

@[simp] theorem answersUnder_nil (k : Key) (results : List (Answer × Report)) :
    answersUnder k [] results = [] := rfl

@[simp] theorem answersUnder_cons (k : Key) (op : Op) (ops : List Op) (a : Answer × Report)
    (as : List (Answer × Report)) :
    answersUnder k (op :: ops) (a :: as) =
      if op.key? = some k then a.1 :: answersUnder k ops as else answersUnder k ops as := by
  simp [answersUnder]

variable {r : Reassembler} {m : Message} {k : Key} {now : Nat}

@[simp] theorem run_nil (r : Reassembler) : r.run [] = ([], r) := rfl

theorem run_cons (r : Reassembler) (op : Op) (ops : List Op) :
    r.run (op :: ops) =
      (((r.step op).result, (r.step op).report) :: ((r.step op).next.run ops).1,
        ((r.step op).next.run ops).2) := rfl

theorem run_append (r : Reassembler) (ops more : List Op) :
    r.run (ops ++ more) =
      ((r.run ops).1 ++ ((r.run ops).2.run more).1, ((r.run ops).2.run more).2) := by
  induction ops generalizing r with
  | nil => rfl
  | cons op ops ih => simp only [List.cons_append, run_cons, ih]

/-- The pushes under a key are all pushes, if there are no others. -/
theorem answersUnder_run_of_forall {k : Key} {ops : List Op} (h : ∀ op ∈ ops, op.key? = some k)
    (r : Reassembler) : answersUnder k ops (r.run ops).1 = (r.run ops).1.map Prod.fst := by
  induction ops generalizing r with
  | nil => rfl
  | cons op ops ih =>
    have hop : op.key? = some k := h op List.mem_cons_self
    rw [run_cons, answersUnder_cons, if_pos hop, ih fun op hm => h op (List.mem_cons_of_mem _ hm)]
    rfl

theorem Reachable.run {limit : Limit} {timeout : Nat} (hr : Reachable limit timeout r)
    (ops : List Op) : Reachable limit timeout (r.run ops).2 := by
  induction ops generalizing r with
  | nil => exact hr
  | cons op ops ih => exact ih (hr.step op)

/-! ## The part under one key -/

/-- The part of the reassembler under one key. -/
def only (r : Reassembler) (k : Key) : Reassembler :=
  { r with partials := r.partials.filter fun p => p.key == k }

theorem only_live (r : Reassembler) (k : Key) (now : Nat) :
    (r.live now).only k = (r.only k).live now := by
  simp [only, live, List.filter_filter, Bool.and_comm]

@[simp] theorem find?_only (r : Reassembler) (k : Key) : (r.only k).find? k = r.find? k := by
  simp only [only, find?, List.find?_filter, and_self, Bool.decide_eq_true]

theorem only_without (r : Reassembler) (k : Key) :
    (r.without k).only k = (r.only k).without k := by
  simp [only, without, List.filter_filter, Bool.and_comm]

theorem only_without_of_ne {k' : Key} (h : k' ≠ k) : (r.without k').only k = r.only k := by
  simp only [only, without, List.filter_filter]
  congr 1
  refine List.filter_congr fun p _ => ?_
  by_cases hp : p.key = k
  · simp [hp, Ne.symm h]
  · simp [hp]

theorem only_keep {p : Partial} (h : p.key = k) : (r.keep p).only k = (r.only k).keep p := by
  simp [only, keep, h]

theorem only_keep_of_ne {p : Partial} (h : p.key ≠ k) : (r.keep p).only k = r.only k := by
  simp [only, keep, h]

/-- Nothing is under a key that is free. -/
theorem only_of_find?_eq_none (h : r.find? k = none) : r.only k = new r.limit r.timeout := by
  have : r.partials.filter (fun p => p.key == k) = [] := by
    simpa using find?_eq_none_iff.mp h
  simp [only, this, new]

theorem Sound.only (hs : r.Sound) (k : Key) : (r.only k).Sound where
  nodup := hs.nodup.sublist (List.filter_sublist.map _)
  sound p hp := hs.sound p (List.mem_filter.mp hp).1

/-! ## One operation, seen from a key -/

/-- Settling a series under `k` is settling it in the part under `k`. -/
private theorem settle_only {p : Partial} (h : p.key = k) :
    ((r.only k).settle p).result = (r.settle p).result ∧
      ((r.only k).settle p).next = (r.settle p).next.only k := by
  have hlimit : (r.only k).limit = r.limit := rfl
  unfold settle
  simp only [hlimit]
  split
  · exact ⟨rfl, rfl⟩
  · split
    · exact ⟨rfl, rfl⟩
    · refine ⟨rfl, (only_keep ?_).symm⟩
      exact h
    · exact ⟨rfl, rfl⟩
    · exact ⟨rfl, rfl⟩

/-- A message under `k` meets what it would meet in the part under `k`. -/
private theorem accept_only (hk : m.key? = some k) (now : Nat) :
    ((r.only k).accept m now).result = (r.accept m now).result ∧
      ((r.only k).accept m now).next = (r.accept m now).next.only k := by
  cases hfind : r.find? k with
  | none =>
    rw [accept_of_find?_eq_none hk hfind, accept_of_find?_eq_none hk (by simpa using hfind)]
    unfold launch
    rw [← only_without]
    split
    · exact settle_only rfl
    · exact ⟨rfl, rfl⟩
    · exact ⟨rfl, rfl⟩
  | some p =>
    rw [accept_of_find?_eq_some hk hfind, accept_of_find?_eq_some hk (by simpa using hfind)]
    unfold advance
    rw [← only_without]
    split
    · exact settle_only (mem_of_find? hfind).2
    · exact ⟨rfl, rfl⟩
    · exact ⟨rfl, rfl⟩

/-- A message that is not under `k` leaves the part under `k` alone. -/
private theorem accept_only_of_ne (hs : r.Sound) (hk : m.key? ≠ some k) (now : Nat) :
    (r.accept m now).next.only k = r.only k := by
  cases hm : m.key? with
  | none => rw [next_accept_of_key?_eq_none hm]
  | some k' =>
    have hne : k' ≠ k := by
      rintro rfl
      exact hk hm
    have haccepted := hs.accepted hm now
    generalize (r.accept m now).result = result, (r.accept m now).next = next at haccepted ⊢
    cases haccepted with
    | refused => exact only_without_of_ne hne
    | last => exact only_without_of_ne hne
    | pending => exact (only_keep_of_ne hne).trans (only_without_of_ne hne)

/-- A push under `k` answers what it answers in the part under `k`. -/
theorem Sound.result_step_only (hs : r.Sound) {op : Op} (hk : op.key? = some k) :
    ((r.only k).step op).result = (r.step op).result := by
  cases op with
  | sweep now => cases hk
  | push m now =>
    show Answer.pushed _ = Answer.pushed _
    rw [(hs.only k).push_eq, hs.push_eq, ← only_live]
    exact congrArg Answer.pushed (accept_only hk now).1

/-- What an operation leaves under `k` is what it leaves as seen from `k`. -/
theorem Sound.step_only (hs : r.Sound) (k : Key) (op : Op) :
    ((r.only k).step (op.seenFrom k)).next = (r.step op).next.only k := by
  by_cases hk : op.key? = some k
  · rw [Op.seenFrom_of_key? hk]
    cases op with
    | sweep now => cases hk
    | push m now =>
      show ((r.only k).push m now).next = (r.push m now).next.only k
      rw [(hs.only k).push_eq, hs.push_eq, ← only_live]
      exact (accept_only hk now).2
  · rw [Op.seenFrom_of_ne hk]
    show (r.only k).live op.now = _
    rw [← only_live]
    cases op with
    | sweep now => rfl
    | push m now =>
      show (r.live now).only k = (r.push m now).next.only k
      rw [hs.push_eq]
      exact (accept_only_of_ne (hs.live now) hk now).symm

/-- A run leaves under `k`, and answers to the pushes under `k`, what the run seen from `k` does. -/
theorem Sound.run_only (hs : r.Sound) (k : Key) (ops : List Op) :
    ((r.only k).run (ops.map (Op.seenFrom k))).2 = (r.run ops).2.only k ∧
      answersUnder k (ops.map (Op.seenFrom k)) ((r.only k).run (ops.map (Op.seenFrom k))).1 =
        answersUnder k ops (r.run ops).1 := by
  induction ops generalizing r with
  | nil => exact ⟨rfl, rfl⟩
  | cons op ops ih =>
    obtain ⟨hnext, hanswers⟩ := ih (hs.step op)
    simp only [List.map_cons, run_cons, answersUnder_cons, hs.step_only, Op.key?_seenFrom, hanswers]
    refine ⟨hnext, ?_⟩
    by_cases hk : op.key? = some k
    · simp only [Op.seenFrom_of_key? hk, hs.result_step_only hk]
    · simp only [hk, ↓reduceIte]

end Reassembler

end Mbim
