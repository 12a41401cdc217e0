import Mbim.Proofs.Reassembler.Slice

/-!
# What a reassembler remembers

Everything that a reassembler holds comes from the pushes of its run. A partial message holds the
payloads of the last pushes under its key, and these carried the indexes from zero on.

* `Reassembler.pushesAt`: the pushes under a key, each with its place in the run.
* `Gathers`: messages that carry the fragments of one series from zero on.
* `Reassembler.Window`: the last pushes under a key, if they carry such fragments.
* `Reassembler.Remembers`: every partial message holds such a window. A message that is taken
  extends the window of its key (`Remembers.taken`), and every operation keeps the others
  (`Remembers.step`).
-/

namespace Mbim

/-- The messages carry the fragments of `k` with the indexes 0, 1, ... in order. -/
def Gathers (k : Key) (ms : List Message) : Prop :=
  ∀ (i : Nat) (m : Message), ms[i]? = some m →
    ∃ p, m.Carries k p m.payloadBytes ∧ p.current.toNat = i

namespace Gathers

variable {k : Key} {ms : List Message} {m : Message} {p : Position}

theorem nil (k : Key) : Gathers k [] := by
  intro i m hm
  simp at hm

/-- The fragment with the next index joins the others. -/
theorem concat (h : Gathers k ms) (hc : m.Carries k p m.payloadBytes)
    (hp : p.current.toNat = ms.length) : Gathers k (ms ++ [m]) := by
  intro i x hx
  by_cases hi : i < ms.length
  · rw [List.getElem?_append_left hi] at hx
    exact h i x hx
  · rw [List.getElem?_append_right (by omega)] at hx
    have hi' : i = ms.length := by
      have := (List.getElem?_eq_some_iff.mp hx).1
      rw [List.length_singleton] at this
      omega
    rw [hi', Nat.sub_self] at hx
    cases hx
    exact ⟨p, hc, by omega⟩

/-- The message in the place `i` has the index `i`. -/
theorem current_eq (h : Gathers k ms) {i : Nat} (hm : ms[i]? = some m) (hp : m.position = .ok p) :
    p.current.toNat = i := by
  obtain ⟨q, hc, hq⟩ := h i m hm
  rw [hc.position] at hp
  cases hp
  exact hq

end Gathers

namespace Reassembler

/-- The message that an operation pushes under a key. -/
def Op.pushedUnder? (k : Key) : Op → Option Message
  | push m _ => if m.key? = some k then some m else none
  | sweep _ => none

theorem Op.pushedUnder?_push {k : Key} {m : Message} (h : m.key? = some k) (now : Nat) :
    (Op.push m now).pushedUnder? k = some m := if_pos h

theorem Op.pushedUnder?_of_ne {k : Key} {op : Op} (h : op.key? ≠ some k) :
    op.pushedUnder? k = none := by
  cases op with
  | push m now => exact if_neg h
  | sweep now => rfl

/-- The pushes under a key, each with its place in the run. -/
def pushesAt (k : Key) (ops : List Op) : List (Nat × Message) :=
  ops.zipIdx.filterMap fun e => (e.1.pushedUnder? k).map fun m => (e.2, m)

theorem pushesAt_append (k : Key) (ops more : List Op) :
    pushesAt k (ops ++ more) = pushesAt k ops ++
      (more.zipIdx ops.length).filterMap fun e => (e.1.pushedUnder? k).map fun m => (e.2, m) := by
  simp [pushesAt, List.zipIdx_append]

theorem pushesAt_concat_push {k : Key} {m : Message} (h : m.key? = some k) (ops : List Op)
    (now : Nat) : pushesAt k (ops ++ [.push m now]) = pushesAt k ops ++ [(ops.length, m)] := by
  rw [pushesAt_append]
  simp [Op.pushedUnder?_push h]

theorem pushesAt_concat_of_ne {k : Key} {op : Op} (h : op.key? ≠ some k) (ops : List Op) :
    pushesAt k (ops ++ [op]) = pushesAt k ops := by
  rw [pushesAt_append]
  simp [Op.pushedUnder?_of_ne h]

/-- The last pushes under a key carry the fragments from zero on, the first of which announces
`total` of them. -/
structure Window (ops : List Op) (k : Key) (total : UInt32) (window : List (Nat × Message)) :
    Prop where
  last : window <:+ pushesAt k ops
  gathers : Gathers k (window.map Prod.snd)
  announced : ∀ e ∈ window.head?, ∃ p, e.2.position = .ok p ∧ p.total = total

/-- The payloads of pushes, one after the other. -/
def payloads (window : List (Nat × Message)) : Bytes := window.flatMap fun e => e.2.payloadBytes

/-- A partial message holds the payloads of the last pushes under its key. -/
def Recalls (ops : List Op) (p : Partial) : Prop :=
  ∃ q window, Window ops p.key q.total window ∧ window.length = q.current.toNat + 1 ∧
    p.series = p.key.series q (payloads window)

/-- Every partial message holds the payloads of the last pushes under its key. -/
def Remembers (ops : List Op) (r : Reassembler) : Prop := ∀ p ∈ r.partials, Recalls ops p

namespace Window

variable {ops : List Op} {k : Key} {total : UInt32} {window : List (Nat × Message)} {m : Message}
  {p : Position}

/-- A fragment with index zero opens a window. -/
theorem first (hc : m.Carries k p m.payloadBytes) (h0 : p.current = 0) (now : Nat) :
    Window (ops ++ [.push m now]) k p.total [(ops.length, m)] where
  last := by
    rw [pushesAt_concat_push hc.key]
    exact List.suffix_append _ _
  gathers := (Gathers.nil k).concat hc (by rw [h0]; rfl)
  announced e he := by
    cases he
    exact ⟨p, hc.position, rfl⟩

/-- The fragment that is due extends the window. -/
theorem next (h : Window ops k total window) (hne : window ≠ [])
    (hc : m.Carries k p m.payloadBytes) (hp : p.current.toNat = window.length) (now : Nat) :
    Window (ops ++ [.push m now]) k total (window ++ [(ops.length, m)]) where
  last := by
    obtain ⟨before, hbefore⟩ := h.last
    rw [pushesAt_concat_push hc.key, ← hbefore]
    exact ⟨before, by rw [List.append_assoc]⟩
  gathers := by
    rw [List.map_append]
    exact h.gathers.concat hc (by rw [List.length_map]; exact hp)
  announced e he := by
    rw [List.head?_append, List.head?_eq_some_head hne, Option.some_or] at he
    apply h.announced
    rw [List.head?_eq_some_head hne]
    exact he

/-- What is pushed under other keys leaves the window the last one. -/
theorem concat_of_ne (h : Window ops k total window) {op : Op} (hk : op.key? ≠ some k) :
    Window (ops ++ [op]) k total window where
  last := by
    rw [pushesAt_concat_of_ne hk]
    exact h.last
  gathers := h.gathers
  announced := h.announced

/-- Windows that start with the same push announce as many fragments. -/
theorem total_eq {ops' : List Op} {total' : UInt32} {window' : List (Nat × Message)}
    (h : Window ops k total window) (h' : Window ops' k total' window')
    (hhead : window.head? = window'.head?) (hne : window ≠ []) : total = total' := by
  have hfirst := List.head?_eq_some_head hne
  obtain ⟨p, hp, rfl⟩ := h.announced _ hfirst
  obtain ⟨q, hq, rfl⟩ := h'.announced _ (hhead.symm.trans hfirst)
  rw [hp] at hq
  cases hq
  rfl

end Window

theorem Recalls.concat_of_ne {ops : List Op} {p : Partial} (h : Recalls ops p) {op : Op}
    (hk : op.key? ≠ some p.key) : Recalls (ops ++ [op]) p := by
  obtain ⟨q, window, hw, hlen, hseries⟩ := h
  exact ⟨q, window, hw.concat_of_ne hk, hlen, hseries⟩

variable {r : Reassembler} {ops : List Op} {m : Message} {k : Key} {now : Nat}

theorem remembers_new (limit : Limit) (timeout : Nat) : Remembers [] (new limit timeout) :=
  fun p hp => by cases hp

theorem Remembers.live (h : Remembers ops r) (now : Nat) : Remembers ops (r.live now) :=
  fun p hp => h p (List.mem_filter.mp hp).1

/-- The partial messages under other keys still hold what they held. -/
theorem Remembers.without (h : Remembers ops r) (op : Op) (hk : op.key? = some k) :
    Remembers (ops ++ [op]) (r.without k) := by
  intro p hp
  refine (h p (List.mem_filter.mp hp).1).concat_of_ne ?_
  rw [hk]
  intro heq
  exact not_mem_without hp (Option.some.inj heq).symm

/-- A message that is taken ends a window of its key. -/
theorem Remembers.taken (h : Remembers ops r) {p : Position} {payload : Bytes} {startedAt : Nat}
    (ht : Taken m k now (r.find? k) p payload startedAt) :
    ∃ window, Window (ops ++ [.push m now]) k p.total window ∧
      window.length = p.current.toNat + 1 ∧ payload = payloads window ∧
      window.getLast? = some (ops.length, m) := by
  generalize hold : r.find? k = old at ht
  cases ht with
  | first hc h0 =>
    obtain rfl := hc.payload_eq
    exact ⟨_, .first hc h0 now, by rw [h0]; rfl, by simp [payloads], rfl⟩
  | next hc hinc hdue =>
    obtain rfl := hc.payload_eq
    obtain ⟨q, window, hw, hlen, hseries⟩ := h _ (mem_of_find? hold).1
    obtain ⟨rfl, rfl⟩ := Key.series_inj hseries
    have hne : window ≠ [] := by
      rintro rfl
      cases hlen
    refine ⟨_, hw.next hne hc (by rw [hlen]; exact hdue) now, ?_, ?_, List.getLast?_concat⟩
    · rw [List.length_append, hlen, ← hdue]
      rfl
    · simp [payloads]

/-- Every operation keeps what partial messages hold. -/
theorem Remembers.step (h : Remembers ops r) (hs : r.Sound) (op : Op) :
    Remembers (ops ++ [op]) (r.step op).next := by
  cases op with
  | sweep now =>
    intro p hp
    exact (h.live now p hp).concat_of_ne (by simp [Op.key?])
  | push m now =>
    show Remembers _ (r.push m now).next
    rw [hs.push_eq]
    have hlive := h.live now
    cases hk : m.key? with
    | none =>
      intro p hp
      simp only [Step.after, next_accept_of_key?_eq_none hk] at hp
      exact (hlive p hp).concat_of_ne (by simp [Op.key?, hk])
    | some k =>
      have hothers := hlive.without (.push m now) hk
      have haccepted := (hs.live now).accepted hk now
      simp only [Step.after]
      generalize ((r.live now).accept m now).result = result,
        ((r.live now).accept m now).next = next at haccepted ⊢
      cases haccepted with
      | refused => exact hothers
      | last => exact hothers
      | pending taken =>
        obtain ⟨window, hw, hlen, rfl, -⟩ := hlive.taken taken
        intro q hq
        obtain hq | hq := List.mem_append.mp hq
        · exact hothers q hq
        · obtain rfl := List.mem_singleton.mp hq
          exact ⟨_, window, hw, hlen, rfl⟩

/-- A run keeps what partial messages hold. -/
theorem Remembers.run (h : Remembers ops r) (hs : r.Sound) (more : List Op) :
    Remembers (ops ++ more) (r.run more).2 := by
  induction more generalizing r ops with
  | nil =>
    rw [List.append_nil]
    exact h
  | cons op more ih =>
    rw [List.append_cons]
    exact ih (h.step hs op) (hs.step op)

end Reassembler

end Mbim
