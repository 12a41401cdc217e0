import Mbim.Proofs.Reassembler.Slice

/-!
# All fragments of one message, in order

* `Fragments`: messages that carry the fragments of one series from some index to the last.
* `Reassembler.run_fragments`: a reassembler that holds nothing takes them in order, with sweeps in
  between that come in time, and ends up holding nothing. Every push but the last is answered with
  `none`, and the last with the message in one piece.
-/

namespace Mbim

/-- The messages are the fragments of `k` from index `n` to the last, with these payloads. -/
inductive Fragments (k : Key) (total : UInt32) : Nat → List Message → List Bytes → Prop
  | nil {n : Nat} (index : n = total.toNat) : Fragments k total n [] []
  | cons {n : Nat} {i : UInt32} {m : Message} {payload : Bytes} {ms : List Message}
    {payloads : List Bytes} (index : i.toNat = n) (carries : m.Carries k ⟨total, i⟩ payload)
    (rest : Fragments k total (n + 1) ms payloads) :
    Fragments k total n (m :: ms) (payload :: payloads)

namespace Fragments

variable {k : Key} {total : UInt32} {n : Nat} {ms : List Message} {payloads : List Bytes}

/-- As many messages as there are indexes left. -/
theorem add_length (h : Fragments k total n ms payloads) : n + ms.length = total.toNat := by
  induction h with
  | nil index => simpa using index
  | cons index carries rest ih =>
    rw [List.length_cons]
    omega

theorem key? (h : Fragments k total n ms payloads) {m : Message} (hm : m ∈ ms) :
    m.key? = some k := by
  induction h with
  | nil => cases hm
  | cons index carries rest ih =>
    cases hm with
    | head => exact carries.key
    | tail _ hm => exact ih hm

end Fragments

namespace Reassembler

/-- The message that an operation pushes, with the clock reading. -/
def Op.pushed? : Op → Option (Message × Nat)
  | push m now => some (m, now)
  | sweep _ => none

/-- The messages that a run pushes, with their clock readings. -/
def pushes (ops : List Op) : List (Message × Nat) := ops.filterMap Op.pushed?

/-- What the pushes of a whole series answer: the message comes behind `pending` empty answers. -/
def seriesAnswers (pending : Nat) (m : Message) : List Answer :=
  List.replicate pending (.pushed (.ok none)) ++ [.pushed (.ok (some m))]

@[simp] theorem pushes_push (m : Message) (now : Nat) (ops : List Op) :
    pushes (.push m now :: ops) = (m, now) :: pushes ops := rfl

@[simp] theorem pushes_sweep (now : Nat) (ops : List Op) :
    pushes (.sweep now :: ops) = pushes ops := rfl

theorem mem_pushes {m : Message} {now : Nat} {ops : List Op} :
    (m, now) ∈ pushes ops ↔ .push m now ∈ ops := by
  unfold pushes
  rw [List.mem_filterMap]
  constructor
  · rintro ⟨op, hop, h⟩
    cases op with
    | push m' now' => cases h; exact hop
    | sweep => cases h
  · intro h
    exact ⟨_, h, rfl⟩

section OneSeries

variable {limit : Limit} {timeout : Nat} {k : Key}

/-! ## A reassembler with one partial message -/

theorem live_new (now : Nat) : (new limit timeout).live now = new limit timeout := rfl

theorem without_new (k : Key) : (new limit timeout).without k = new limit timeout := rfl

theorem find?_keep_new (s : Series) (startedAt : Nat) :
    ((new limit timeout).keep ⟨k, s, startedAt⟩).find? k = some ⟨k, s, startedAt⟩ := by
  simp [find?, keep, new]

theorem without_keep_new (s : Series) (startedAt : Nat) :
    ((new limit timeout).keep ⟨k, s, startedAt⟩).without k = new limit timeout :=
  without_keep (new limit timeout) k s startedAt

/-- A partial message in time survives the sweep. -/
theorem live_keep_new {p : Partial} {now : Nat} (h : now - p.startedAt < timeout) :
    ((new limit timeout).keep p).live now = (new limit timeout).keep p := by
  have : p.isExpired timeout now = false := by
    unfold Partial.isExpired
    exact decide_eq_false (by omega)
  simp [live, keep, new, this]

/-- The first fragment of a series is settled. -/
theorem push_new (limit : Limit) (timeout : Nat) {m : Message} {p : Position} {payload : Bytes}
    (hc : m.Carries k p payload) (h0 : p.current = 0) (now : Nat) :
    (new limit timeout).push m now =
      ((new limit timeout).settle ⟨k, k.series p payload, now⟩).after
        (expiries ((new limit timeout).expired now)) := by
  rw [(sound_new limit timeout).push_eq, live_new, accept_first hc rfl h0, without_new]

/-- The fragment that is due, in time and within the limits, is settled. -/
theorem push_keep_new {m : Message} (p : Position) {q : Position} {payload more : Bytes}
    {startedAt now : Nat} (hc : m.Carries k q more) (hinc : p.current.toNat + 1 < p.total.toNat)
    (hdue : q.current.toNat = p.current.toNat + 1) (htime : now - startedAt < timeout)
    (hcap : overhead + payload.length ≤ limit.bytes)
    (hword : overhead + (payload ++ more).length < wordBound) :
    ((new limit timeout).keep ⟨k, k.series p payload, startedAt⟩).push m now =
      ((new limit timeout).settle
        ⟨k, k.series ⟨p.total, q.current⟩ (payload ++ more), startedAt⟩).after
      (expiries (((new limit timeout).keep ⟨k, k.series p payload, startedAt⟩).expired now)) := by
  have hsound : ((new limit timeout).keep ⟨k, k.series p payload, startedAt⟩).Sound := by
    have hkind := Message.isFragment_of_key? hc.key
    refine (sound_new limit timeout).keep ⟨hkind, p, payload, rfl, hinc, hcap, ?_⟩ (by simp [new])
    rw [List.length_append] at hword
    omega
  rw [hsound.push_eq, live_keep_new htime, accept_next hc (find?_keep_new _ _) hinc hdue hword,
    without_keep_new]

/-- Nothing comes of sweeping nothing. -/
theorem run_new_of_pushes_eq_nil (limit : Limit) (timeout : Nat) (k : Key) {ops : List Op}
    (h : pushes ops = []) :
    ((new limit timeout).run ops).2 = new limit timeout ∧
      answersUnder k ops ((new limit timeout).run ops).1 = [] := by
  induction ops with
  | nil => exact ⟨rfl, rfl⟩
  | cons op ops ih =>
    cases op with
    | push m now => cases h
    | sweep now =>
      obtain ⟨hnext, hanswers⟩ := ih h
      have hstep : ((new limit timeout).step (.sweep now)).next = new limit timeout := rfl
      simp only [run_cons, hstep, answersUnder_cons, Op.key?]
      exact ⟨hnext, by simpa using hanswers⟩

/-! ## The run of a whole series -/

/-- A series that was settled with its last fragment. -/
theorem run_settle_last {p : Position} {payload : Bytes} (startedAt : Nat) {ops : List Op}
    (hlast : p.current.toNat + 1 = p.total.toNat) (hpushes : pushes ops = [])
    (hcap : overhead + payload.length ≤ limit.bytes) :
    let s := (new limit timeout).settle ⟨k, k.series p payload, startedAt⟩
    (s.next.run ops).2 = new limit timeout ∧
      .pushed s.result :: answersUnder k ops (s.next.run ops).1 =
        seriesAnswers 0 (k.fragment .single payload) := by
  obtain ⟨hnext, hanswers⟩ := run_new_of_pushes_eq_nil limit timeout k hpushes
  rw [settle_of_last hcap hlast]
  exact ⟨hnext, by simp [hanswers, seriesAnswers]⟩

/-- A series that was settled and gets its remaining fragments in time, and nothing else under its
key. -/
theorem run_settle_fragments {total i : UInt32} {payload : Bytes} {startedAt : Nat}
    {ms : List Message} {payloads : List Bytes} {ops : List Op}
    (hms : Fragments k total (i.toNat + 1) ms payloads)
    (hpushes : (pushes ops).map Prod.fst = ms) (hclock : (ops.map Op.now).Pairwise (· ≤ ·))
    (htime : ∀ e ∈ pushes ops, e.2 - startedAt < timeout)
    (hcap : overhead + (payload ++ payloads.flatten).length ≤ limit.bytes)
    (hword : overhead + (payload ++ payloads.flatten).length < wordBound) :
    let s := (new limit timeout).settle ⟨k, k.series ⟨total, i⟩ payload, startedAt⟩
    (s.next.run ops).2 = new limit timeout ∧
      .pushed s.result :: answersUnder k ops (s.next.run ops).1 =
        seriesAnswers ms.length (k.fragment .single (payload ++ payloads.flatten)) := by
  -- Until the last fragment the series is kept: a sweep comes in time, a push is the one due.
  induction ops generalizing i payload ms payloads with
  | nil =>
    obtain rfl : ms = [] := hpushes.symm
    cases hms with
    | nil index =>
      rw [List.flatten_nil, List.append_nil] at hcap ⊢
      exact run_settle_last startedAt index rfl hcap
  | cons op ops ih =>
    by_cases hlast : pushes (op :: ops) = []
    · rw [hlast] at hpushes
      obtain rfl : ms = [] := hpushes.symm
      cases hms with
      | nil index =>
        rw [List.flatten_nil, List.append_nil] at hcap ⊢
        exact run_settle_last startedAt index hlast hcap
    have hcap' : overhead + payload.length ≤ limit.bytes := by
      rw [List.length_append] at hcap
      omega
    have hlen := hms.add_length
    have hne : ms ≠ [] := by
      rw [← hpushes]
      simpa using hlast
    have hpos := List.length_pos_iff.mpr hne
    have hinc : i.toNat + 1 < total.toNat := by omega
    rw [settle_of_pending hcap' (Nat.ne_of_lt hinc)]
    rw [List.map_cons, List.pairwise_cons] at hclock
    cases op with
    | sweep now =>
      rw [pushes_sweep] at hpushes htime hlast
      obtain ⟨e, he⟩ := List.exists_mem_of_ne_nil _ hlast
      have hnow : now ≤ e.2 := hclock.1 _ (List.mem_map.mpr ⟨_, mem_pushes.mp he, rfl⟩)
      have hintime : now - startedAt < timeout := by
        have := htime e he
        omega
      have hstep : (((new limit timeout).keep
          ⟨k, k.series ⟨total, i⟩ payload, startedAt⟩).step (.sweep now)).next =
          (new limit timeout).keep ⟨k, k.series ⟨total, i⟩ payload, startedAt⟩ :=
        live_keep_new hintime
      have := ih hms hpushes hclock.2 htime hcap hword
      rw [settle_of_pending hcap' (Nat.ne_of_lt hinc)] at this
      simp only [run_cons, hstep, answersUnder_cons, Op.key?, reduceCtorEq, ↓reduceIte]
      exact this
    | push m now =>
      rw [pushes_push, List.map_cons] at hpushes
      subst hpushes
      cases hms with
      | cons index carries rest =>
        rename_i i' more payloads
        rw [List.flatten_cons, ← List.append_assoc] at hcap hword ⊢
        have hword' : overhead + (payload ++ more).length < wordBound := by
          rw [List.length_append] at hword
          omega
        have hintime : now - startedAt < timeout := htime (m, now) (by simp)
        have hpush := push_keep_new ⟨total, i⟩ carries hinc index hintime hcap' hword'
        obtain ⟨hnext, hanswers⟩ := ih (index ▸ rest) rfl hclock.2
          (fun e he => htime e (by simp [he])) hcap hword
        simp only [run_cons, step, hpush, Step.after, answersUnder_cons, Op.key?, carries.key,
          ↓reduceIte]
        refine ⟨hnext, ?_⟩
        rw [hanswers]
        rfl

/-- All fragments of one message in order, with sweeps in between: the message comes with the last
of them. If there is more than one, no two may be as far apart as the timeout. -/
theorem run_fragments (limit : Limit) (timeout : Nat) {total : UInt32} {ms : List Message}
    {payloads : List Bytes} {ops : List Op} (hms : Fragments k total 0 ms payloads) (hne : ms ≠ [])
    (hpushes : (pushes ops).map Prod.fst = ms)
    (hclock : (ops.map Op.now).Pairwise (· ≤ ·))
    (htime : ms.length = 1 ∨ ∀ e ∈ pushes ops, ∀ e' ∈ pushes ops, e'.2 - e.2 < timeout)
    (hcap : overhead + payloads.flatten.length ≤ limit.bytes)
    (hword : overhead + payloads.flatten.length < wordBound) :
    ((new limit timeout).run ops).2 = new limit timeout ∧
      answersUnder k ops ((new limit timeout).run ops).1 =
        seriesAnswers (ms.length - 1) (k.fragment .single payloads.flatten) := by
  induction ops with
  | nil => exact absurd hpushes.symm hne
  | cons op ops ih =>
    rw [List.map_cons, List.pairwise_cons] at hclock
    cases op with
    | sweep now =>
      have hstep : ((new limit timeout).step (.sweep now)).next = new limit timeout := rfl
      simp only [run_cons, hstep, answersUnder_cons, Op.key?, reduceCtorEq, ↓reduceIte]
      exact ih hpushes hclock.2 htime
    | push m now =>
      rw [pushes_push, List.map_cons] at hpushes
      subst hpushes
      cases hms with
      | cons index carries rest =>
        rename_i i payload payloads
        have hpush := push_new limit timeout carries (UInt32.toNat_inj.mp index) now
        have htime' : ∀ e ∈ pushes ops, e.2 - now < timeout := by
          intro e he
          obtain h1 | hall := htime
          · rw [List.length_cons, List.length_map] at h1
            exact absurd (List.length_pos_of_mem he) (by omega)
          · exact hall (m, now) (by simp) e (by simp [he])
        obtain ⟨hnext, hanswers⟩ :=
          run_settle_fragments (index ▸ rest) rfl hclock.2 htime' hcap hword
        simp only [run_cons, step, hpush, Step.after, answersUnder_cons, Op.key?, carries.key,
          ↓reduceIte]
        exact ⟨hnext, hanswers⟩

end OneSeries

end Reassembler

end Mbim
