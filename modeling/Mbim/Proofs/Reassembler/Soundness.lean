import Mbim.Proofs.Reassembler.History

/-!
# Where returned messages come from

A message that a push under a key returns is made of the last pushes under this key, each a
fragment in its turn, and of nothing else; and no push goes into two returned messages.

* `Reassembler.Returns`: the push in some place of a run is answered with a message.
* `Reassembler.Assembled`: a message is made of the last pushes under a key.
* `Reassembler.Assembled.disjoint`: messages returned in different places are made of different
  pushes.
* `Reassembler.returns_sound`: what every run returns is assembled so, and is a valid message within
  the size cap.
-/

namespace Mbim

namespace Reassembler

/-- In the run from an empty reassembler, the push in the place `j`, of a message under `k`, is
answered with `m`. -/
def Returns (limit : Limit) (timeout : Nat) (ops : List Op) (j : Nat) (k : Key) (m : Message) :
    Prop :=
  ∃ pushed now report, ops[j]? = some (.push pushed now) ∧ pushed.key? = some k ∧
    ((new limit timeout).run ops).1[j]? = some (.pushed (.ok (some m)), report)

/-- The message is made of the last pushes under `k` up to the one in the place `j`: as many as the
first of them announces, with the indexes from zero on, in order. -/
structure Assembled (ops : List Op) (j : Nat) (k : Key) (m : Message) (total : UInt32)
    (window : List (Nat × Message)) : Prop where
  isWindow : Window (ops.take (j + 1)) k total window
  complete : window.length = total.toNat
  ends : window.getLast?.map Prod.fst = some j
  message : m = k.fragment .single (payloads window)

/-! ## Places in a run -/

theorem getElem?_run (r : Reassembler) (ops : List Op) (j : Nat) :
    (r.run ops).1[j]? = ops[j]?.map fun op =>
      (((r.run (ops.take j)).2.step op).result, ((r.run (ops.take j)).2.step op).report) := by
  induction ops generalizing r j with
  | nil => simp
  | cons op ops ih =>
    cases j with
    | zero => rfl
    | succ j =>
      simp only [run_cons, List.getElem?_cons_succ, List.take_succ_cons]
      exact ih _ j

theorem take_succ_eq_concat {ops : List Op} {j : Nat} {op : Op} (h : ops[j]? = some op) :
    ops.take (j + 1) = ops.take j ++ [op] := by
  rw [List.take_add_one, h]
  rfl

/-- A push under a key is where it says, and under this key. -/
theorem exists_of_mem_pushesAt {k : Key} {ops : List Op} {e : Nat × Message}
    (h : e ∈ pushesAt k ops) : ∃ now, ops[e.1]? = some (.push e.2 now) ∧ e.2.key? = some k := by
  obtain ⟨⟨op, i⟩, hop, he⟩ := List.mem_filterMap.mp h
  have hi : ops[i]? = some op := List.mem_zipIdx_iff_getElem?.mp hop
  cases op with
  | sweep now => simp [Op.pushedUnder?] at he
  | push m now =>
    by_cases hk : m.key? = some k
    · simp only [Op.pushedUnder?, hk, ↓reduceIte, Option.map_some, Option.some.injEq] at he
      subst he
      exact ⟨now, hi, hk⟩
    · simp [Op.pushedUnder?, hk] at he

/-- In a longer part of a run, later pushes join. -/
theorem exists_pushesAt_take (k : Key) {ops : List Op} {i j : Nat} (hij : i ≤ j)
    (hi : i ≤ ops.length) :
    ∃ later, pushesAt k (ops.take j) = pushesAt k (ops.take i) ++ later ∧
      ∀ e ∈ later, i ≤ e.1 := by
  have htake : ops.take j = ops.take i ++ (ops.take j).drop i := by
    conv => lhs; rw [← List.take_append_drop i (ops.take j)]
    rw [List.take_take, Nat.min_eq_left hij]
  rw [htake, pushesAt_append]
  refine ⟨_, rfl, ?_⟩
  intro e he
  obtain ⟨⟨op, n⟩, hop, hpush⟩ := List.mem_filterMap.mp he
  have hn := List.le_snd_of_mem_zipIdx hop
  rw [List.length_take, Nat.min_eq_left hi] at hn
  obtain ⟨m, -, rfl⟩ := Option.map_eq_some_iff.mp hpush
  exact hn

/-! ## One returned message -/

/-- What a push under a key returns ends a window of this key. -/
theorem Remembers.exists_window {r : Reassembler} {ops : List Op} {m x : Message} {k : Key}
    {now : Nat} (h : Remembers ops r) (hs : r.Sound) (hk : m.key? = some k)
    (hx : (r.push m now).result = .ok (some x)) :
    ∃ total window, Window (ops ++ [.push m now]) k total window ∧ window.length = total.toNat ∧
      window.getLast? = some (ops.length, m) ∧ x = k.fragment .single (payloads window) ∧
      overhead + (payloads window).length ≤ r.limit.bytes ∧
      overhead + (payloads window).length < wordBound := by
  rw [hs.push_eq] at hx
  have haccepted := (hs.live now).accepted hk now
  simp only [Step.after] at hx
  rw [hx] at haccepted
  generalize ((r.live now).accept m now).next = next at haccepted
  cases haccepted with
  | last taken hfits hword hcomplete =>
    obtain ⟨window, hw, hlen, rfl, hends⟩ := (h.live now).taken taken
    exact ⟨_, window, hw, hlen.trans hcomplete, hends, rfl, hfits, hword⟩

theorem Returns.exists_push {limit : Limit} {timeout : Nat} {ops : List Op} {j : Nat} {k : Key}
    {m : Message} (h : Returns limit timeout ops j k m) :
    ∃ pushed now, ops[j]? = some (.push pushed now) ∧ pushed.key? = some k ∧
      (((new limit timeout).run (ops.take j)).2.push pushed now).result = .ok (some m) := by
  obtain ⟨pushed, now, report, hop, hk, hanswer⟩ := h
  rw [getElem?_run, hop, Option.map_some, Option.some.injEq, Prod.mk.injEq] at hanswer
  exact ⟨pushed, now, hop, hk, Answer.pushed.inj hanswer.1⟩

/-- What is returned is assembled, and a valid message within the size cap. -/
theorem Returns.exists_assembled {limit : Limit} {timeout : Nat} {ops : List Op} {j : Nat} {k : Key}
    {m : Message} (h : Returns limit timeout ops j k m) :
    ∃ total window, Assembled ops j k m total window ∧ m.validate = .ok () ∧
      m.bytes.length ≤ limit.bytes := by
  obtain ⟨pushed, now, hop, hk, hresult⟩ := h.exists_push
  have hreached : Reachable limit timeout ((new limit timeout).run (ops.take j)).2 :=
    Reachable.new.run (ops.take j)
  have hremembers : Remembers (ops.take j) ((new limit timeout).run (ops.take j)).2 :=
    (remembers_new limit timeout).run (sound_new limit timeout) (ops.take j)
  obtain ⟨total, window, hw, hlen, hends, rfl, hle, hword⟩ :=
    hremembers.exists_window hreached.sound hk hresult
  have hj : (ops.take j).length = j := by
    have := (List.getElem?_eq_some_iff.mp hop).1
    rw [List.length_take, Nat.min_eq_left (by omega)]
  rw [hreached.limits.1] at hle
  refine ⟨total, window, ⟨?_, hlen, ?_, rfl⟩, ?_, ?_⟩
  · rw [take_succ_eq_concat hop]
    exact hw
  · rw [hends, hj]
    rfl
  · exact Message.validate_fragment (Message.isFragment_of_key? hk) (by decide) hword
  · rw [Key.length_fragment]
    exact hle

/-! ## Two returned messages -/

namespace Assembled

variable {ops : List Op} {j j' : Nat} {k k' : Key} {m m' : Message} {total total' : UInt32}
  {window window' : List (Nat × Message)}

theorem exists_of_mem (h : Assembled ops j k m total window) {e : Nat × Message}
    (he : e ∈ window) :
    e.1 ≤ j ∧ ∃ now, ops[e.1]? = some (.push e.2 now) ∧ e.2.key? = some k := by
  obtain ⟨now, hop, hk⟩ := exists_of_mem_pushesAt (h.isWindow.last.subset he)
  rw [List.getElem?_take] at hop
  split at hop
  · rename_i hlt
    exact ⟨by omega, now, hop, hk⟩
  · cases hop

theorem ne_nil (h : Assembled ops j k m total window) : window ≠ [] := by
  rintro rfl
  have := h.ends
  simp at this

theorem exists_getLast? (h : Assembled ops j k m total window) :
    ∃ pushed, window.getLast? = some (j, pushed) ∧ j < ops.length := by
  obtain ⟨⟨i, pushed⟩, hlast, rfl⟩ := Option.map_eq_some_iff.mp h.ends
  obtain ⟨-, now, hop, -⟩ := h.exists_of_mem (List.mem_of_getLast? hlast)
  exact ⟨pushed, hlast, (List.getElem?_eq_some_iff.mp hop).1⟩

/-- A later window that reaches into an earlier one starts with all of it: the push that they share
at the end of the earlier one has one index only. -/
private theorem eq_of_reaches {before shared later : List (Nat × Message)}
    (h : Assembled ops j k m total window)
    (h' : Assembled ops j' k m' total' (shared ++ later))
    (hshared : before ++ shared = pushesAt k (ops.take (j + 1))) (hne : shared ≠ []) :
    shared = window := by
  obtain ⟨front, hfront⟩ := h.isWindow.last
  obtain ⟨pushed, hlast, -⟩ := h.exists_getLast?
  have hsame : shared.getLast? = some (j, pushed) := by
    have hboth := congrArg List.getLast? (hshared.trans hfront.symm)
    rw [List.getLast?_append, List.getLast?_append, hlast, List.getLast?_eq_some_getLast hne,
      Option.some_or, Option.some_or] at hboth
    rw [List.getLast?_eq_some_getLast hne]
    exact hboth
  rw [List.getLast?_eq_getElem?] at hlast hsame
  have hin : (window.map Prod.snd)[window.length - 1]? = some pushed := by
    rw [List.getElem?_map, hlast]
    rfl
  have hin' : ((shared ++ later).map Prod.snd)[shared.length - 1]? = some pushed := by
    have hpos := List.length_pos_iff.mpr hne
    rw [List.getElem?_map, List.getElem?_append_left (by omega), hsame]
    rfl
  obtain ⟨p, hc, hp⟩ := h.isWindow.gathers _ _ hin
  have hp' := h'.isWindow.gathers.current_eq hin' hc.position
  have hlen : shared.length = window.length := by
    have := List.length_pos_iff.mpr hne
    have := List.length_pos_iff.mpr h.ne_nil
    omega
  exact (List.append_inj' (hshared.trans hfront.symm) hlen).2

/-- A message that is returned later under the same key shares no push with an earlier one. -/
private theorem disjoint_of_lt (h : Assembled ops j k m total window)
    (h' : Assembled ops j' k m' total' window') (hlt : j < j') {e e' : Nat × Message}
    (he : e ∈ window) (he' : e' ∈ window') : e.1 ≠ e'.1 := by
  obtain ⟨before, hbefore⟩ := h'.isWindow.last
  obtain ⟨pushed, hlast, hj⟩ := h.exists_getLast?
  obtain ⟨hle, -⟩ := h.exists_of_mem he
  obtain ⟨later, hlater, hplaces⟩ := exists_pushesAt_take k (Nat.succ_le_succ (Nat.le_of_lt hlt)) hj
  rw [hlater] at hbefore
  obtain ⟨shared, hshared, rfl⟩ | ⟨skipped, -, rfl⟩ := List.append_eq_append_iff.mp hbefore
  · obtain he' | he' := List.mem_append.mp he'
    · exfalso
      -- It starts like the earlier window, so it announces as many, and cannot be longer.
      obtain rfl := h.eq_of_reaches h' hshared.symm (List.ne_nil_of_mem he')
      have hhead : shared.head? = (shared ++ later).head? := by
        rw [List.head?_append, List.head?_eq_some_head h.ne_nil, Option.some_or]
      have htotal := h.isWindow.total_eq h'.isWindow hhead h.ne_nil
      have hlen := h'.complete
      rw [← htotal, ← h.complete, List.length_append] at hlen
      obtain rfl := List.eq_nil_of_length_eq_zero (by omega : later.length = 0)
      obtain ⟨pushed', hlast', -⟩ := h'.exists_getLast?
      rw [List.append_nil, hlast] at hlast'
      cases hlast'
      omega
    · have := hplaces e' he'
      omega
  · have := hplaces e' (List.mem_append_right _ he')
    omega

theorem disjoint (h : Assembled ops j k m total window)
    (h' : Assembled ops j' k' m' total' window') (hne : j ≠ j') {e e' : Nat × Message}
    (he : e ∈ window) (he' : e' ∈ window') : e.1 ≠ e'.1 := by
  obtain ⟨-, now, hop, hk⟩ := h.exists_of_mem he
  obtain ⟨-, now', hop', hk'⟩ := h'.exists_of_mem he'
  by_cases hkeys : k = k'
  · subst hkeys
    obtain hlt | hgt := Nat.lt_or_gt_of_ne hne
    · exact h.disjoint_of_lt h' hlt he he'
    · exact (h'.disjoint_of_lt h hgt he' he).symm
  · intro hplace
    rw [← hplace, hop] at hop'
    obtain ⟨hsame, -⟩ := Op.push.inj (Option.some.inj hop')
    rw [← hsame, hk] at hk'
    exact hkeys (Option.some.inj hk')

end Assembled

/-- Whatever comes in and whatever the clock reads: each message that is returned is made of the
last pushes under its key, as many as the first of them announces, each the fragment with the next
index. It is valid and within the size cap, and no push goes into two returned messages. -/
theorem returns_sound (limit : Limit) (timeout : Nat) (ops : List Op) :
    (∀ j k m, Returns limit timeout ops j k m →
      ∃ total window, Assembled ops j k m total window ∧ m.validate = .ok () ∧
        m.bytes.length ≤ limit.bytes) ∧
    ∀ j j' k k' m m' total total' window window', Assembled ops j k m total window →
      Assembled ops j' k' m' total' window' → j ≠ j' →
      ∀ e ∈ window, ∀ e' ∈ window', e.1 ≠ e'.1 := by
  constructor
  · intro j k m h
    exact h.exists_assembled
  · intro j j' k k' m m' total total' window window' h h' hne e he e' he'
    exact h.disjoint h' hne he he'

/-- A series broken off by its first fragment again, one whose fragments do not agree on their
number, and a message in one piece. -/
def restarts : List Op :=
  [.push (Key.fragment ⟨.command, 7⟩ ⟨2, 0⟩ [1]) 0,
    .push (Key.fragment ⟨.command, 7⟩ ⟨2, 0⟩ [2]) 0,
    .push (Key.fragment ⟨.command, 7⟩ ⟨2, 0⟩ [3]) 1,
    .sweep 1,
    .push (Key.fragment ⟨.command, 7⟩ ⟨9, 1⟩ [4]) 0,
    .push (Key.fragment ⟨.command, 7⟩ .single [5]) 3]

theorem returns_sound_restarts :
    let two := Key.fragment ⟨.command, 7⟩ .single [3, 4]
    let one := Key.fragment ⟨.command, 7⟩ .single [5]
    Returns ⟨64, by decide⟩ 100 restarts 4 ⟨.command, 7⟩ two ∧
      Returns ⟨64, by decide⟩ 100 restarts 5 ⟨.command, 7⟩ one ∧
      ∃ total window total' window',
        Assembled restarts 4 ⟨.command, 7⟩ two total window ∧
        Assembled restarts 5 ⟨.command, 7⟩ one total' window' ∧
        ∀ e ∈ window, ∀ e' ∈ window', e.1 ≠ e'.1 := by
  intro two one
  have htwo : Returns ⟨64, by decide⟩ 100 restarts 4 ⟨.command, 7⟩ two :=
    ⟨_, _, _, rfl, by decide, rfl⟩
  have hone : Returns ⟨64, by decide⟩ 100 restarts 5 ⟨.command, 7⟩ one :=
    ⟨_, _, _, rfl, by decide, rfl⟩
  obtain ⟨hassembled, hdisjoint⟩ := returns_sound ⟨64, by decide⟩ 100 restarts
  obtain ⟨total, window, h, -⟩ := hassembled 4 ⟨.command, 7⟩ two htwo
  obtain ⟨total', window', h', -⟩ := hassembled 5 ⟨.command, 7⟩ one hone
  have hdiffer := hdisjoint 4 5 _ _ _ _ _ _ _ _ h h' (by decide)
  exact ⟨htwo, hone, total, window, total', window', h, h', hdiffer⟩

end Reassembler

end Mbim
