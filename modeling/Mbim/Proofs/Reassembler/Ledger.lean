import Mathlib.Algebra.Order.Ring.Nat
import Mbim.Proofs.Reassembler.History

/-!
# The books of a link

What becomes of every series, written down by someone who sees the operations on a reassembler and
its answers, and knows its timeout.

* `Reassembler.Account`: the messages that one series took, in order.
* `Reassembler.Ledger`: the accounts of series that are running, that were returned as a message,
  and that were dropped. `Ledger.post` enters one operation with its answer, `Ledger.postAll` many.
* `Ledger.count`: what the counters should read.
* Closing accounts keeps all of them (`Ledger.accounts_drop`, `Ledger.accounts_give`); a message
  that is entered opens one or joins one (`Ledger.accounts_enter`).
-/

namespace Mbim

/-- The number of fragments that a message announces. -/
def Message.announced (m : Message) : UInt32 :=
  match m.position with
  | .ok p => p.total
  | _ => 0

namespace Reassembler

/-- The account of one series. -/
structure Account where
  key : Key
  /-- The clock reading at its first fragment. -/
  startedAt : Nat
  first : Message
  /-- The messages that continued it. -/
  later : List Message
  deriving DecidableEq

namespace Account

/-- The messages that the series took, in order. -/
def taken (a : Account) : List Message := a.first :: a.later

/-- The number of fragments that the first one announced. -/
def total (a : Account) : UInt32 := a.first.announced

/-- One message more. -/
def add (a : Account) (m : Message) : Account := { a with later := a.later ++ [m] }

/-- Whether the time of the series is over. -/
def isOverdue (a : Account) (timeout now : Nat) : Bool := decide (timeout ≤ now - a.startedAt)

@[simp] theorem taken_add (a : Account) (m : Message) : (a.add m).taken = a.taken ++ [m] := rfl

end Account

/-- The accounts of all series. -/
structure Ledger where
  running : List Account
  /-- Closed with the message that was returned. -/
  returned : List (Account × Message)
  /-- Closed without a message. -/
  dropped : List (Account × DropReason)
  deriving DecidableEq

namespace Ledger

/-- No series so far. -/
def empty : Ledger := ⟨[], [], []⟩

/-- The accounts of all series, whatever became of them. -/
def accounts (l : Ledger) : List Account :=
  l.running ++ l.returned.map Prod.fst ++ l.dropped.map Prod.fst

/-- The running account under a key. -/
def find? (l : Ledger) (k : Key) : Option Account := l.running.find? fun a => a.key == k

/-- The account under `k` with the message `m`, which opens one if there is none. -/
def account (l : Ledger) (k : Key) (m : Message) (now : Nat) : Account :=
  match l.find? k with
  | some a => a.add m
  | none => ⟨k, now, m, []⟩

/-- Enter a message that is taken under `k`. -/
def enter (l : Ledger) (k : Key) (m : Message) (now : Nat) : Ledger :=
  { l with running := (l.running.filter fun a => a.key != k) ++ [l.account k m now] }

/-- Close the account under `k` with a message that is returned. -/
def give (l : Ledger) (k : Key) (m : Message) : Ledger :=
  match l.find? k with
  | some a =>
    { l with
      running := l.running.filter fun a => a.key != k
      returned := l.returned ++ [(a, m)] }
  | none => l

/-- Close running accounts without a message. -/
def drop (l : Ledger) (which : Account → Bool) (reason : DropReason) : Ledger :=
  { l with
    running := l.running.filter fun a => !which a
    dropped := l.dropped ++ (l.running.filter which).map fun a => (a, reason) }

/-- Enter the answer to a push under `k`. A message beyond the size cap is taken before its series
is dropped. -/
def record (l : Ledger) (k : Key) (m : Message) (now : Nat) :
    Outcome PushError (Option Message) → Ledger
  | .ok none => l.enter k m now
  | .ok (some x) => (l.enter k m now).give k x
  | .error (.tooLarge ..) => (l.enter k m now).drop (fun a => a.key == k) .oversized
  | .error (.fragment e) => l.drop (fun a => a.key == k) e.dropReason
  | .fault _ => l

/-- Enter an operation and its answer: the series whose time is over are dropped first. -/
def post (timeout : Nat) (l : Ledger) (op : Op) (answer : Answer) : Ledger :=
  let swept := l.drop (fun a => a.isOverdue timeout op.now) .expired
  match op, answer with
  | .push m now, .pushed result =>
    match m.key? with
    | some k => swept.record k m now result
    | none => swept
  | _, _ => swept

/-- Enter operations with their answers. -/
def postAll (timeout : Nat) : Ledger → List Op → List Answer → Ledger
  | l, op :: ops, answer :: answers => postAll timeout (l.post timeout op answer) ops answers
  | l, _, _ => l

/-- The number of messages that all series took. -/
def fragments (l : Ledger) : Nat := (l.accounts.map fun a => a.taken.length).sum

/-- What a counter should read. -/
def count (l : Ledger) : Counter → Nat
  | .inbound => l.fragments
  | .outbound => 0
  | .reassembled => l.returned.countP fun e => decide (1 < e.1.total)
  | .dropped reason => l.dropped.countP fun e => e.2 == reason

variable {l : Ledger} {k : Key} {m : Message} {a : Account} {now : Nat}

/-! ## Accounts under a key -/

/-- Where no two elements have the same key, picking by key is finding. -/
private theorem filter_eq_toList {α : Type} {f : α → Key} {xs : List α} (h : (xs.map f).Nodup)
    (k : Key) : (xs.filter fun x => f x == k) = (xs.find? fun x => f x == k).toList := by
  induction xs with
  | nil => rfl
  | cons x xs ih =>
    rw [List.map_cons, List.nodup_cons] at h
    by_cases hx : f x = k
    · have hnone : (xs.filter fun x => f x == k) = [] := by
        rw [List.filter_eq_nil_iff]
        intro y hy
        have hne : f y ≠ k := fun hyk => h.1 (List.mem_map.mpr ⟨y, hy, hyk.trans hx.symm⟩)
        simpa using hne
      simp [hx, hnone]
    · simp [hx, ih h.2]

theorem find?_eq_none_iff : l.find? k = none ↔ ∀ a ∈ l.running, a.key ≠ k := by
  simp [find?, List.find?_eq_none]

theorem mem_accounts_of_find? (h : l.find? k = some a) : a ∈ l.accounts :=
  List.mem_append_left _ (List.mem_append_left _ (List.mem_of_find?_eq_some h))

@[simp] theorem key_account (l : Ledger) (k : Key) (m : Message) (now : Nat) :
    (l.account k m now).key = k := by
  unfold account
  split
  · rename_i a h
    have hkey : a.key = k := by simpa using List.find?_some h
    exact hkey
  · rfl

/-- The account under a key, and those under other keys. -/
theorem running_perm (hn : (l.running.map Account.key).Nodup) (k : Key) :
    ((l.find? k).toList ++ l.running.filter fun a => a.key != k).Perm l.running := by
  have hperm := List.filter_append_perm (fun a : Account => a.key == k) l.running
  rw [filter_eq_toList hn] at hperm
  exact hperm

/-- There is one account under a key. -/
theorem countP_of_find? (hn : (l.running.map Account.key).Nodup) (h : l.find? k = some a) :
    (l.running.countP fun a => a.key == k) = 1 := by
  have hpick := filter_eq_toList hn k
  rw [List.countP_eq_length_filter, hpick]
  exact congrArg (fun found => found.toList.length) h

theorem find?_enter (l : Ledger) (k : Key) (m : Message) (now : Nat) :
    (l.enter k m now).find? k = some (l.account k m now) := by
  have hnone : (l.running.filter fun a => a.key != k).find? (fun a => a.key == k) = none := by
    simp [List.find?_eq_none]
  unfold find? enter
  rw [List.find?_append, hnone, Option.none_or]
  simp

/-- The account that a message is entered in is the only one under its key. -/
theorem nodup_enter (hn : (l.running.map Account.key).Nodup) (k : Key) (m : Message) (now : Nat) :
    ((l.enter k m now).running.map Account.key).Nodup := by
  simp only [enter, List.map_append, List.map_cons, List.map_nil, key_account, List.nodup_append,
    List.mem_map, List.mem_filter, List.mem_singleton]
  refine ⟨hn.sublist (List.filter_sublist.map _), by simp, ?_⟩
  rintro _ ⟨a, ⟨-, ha⟩, rfl⟩ _ rfl
  simpa using ha

/-- Nothing is dropped where there is no account. -/
theorem drop_of_find?_eq_none (h : l.find? k = none) (reason : DropReason) :
    l.drop (fun a => a.key == k) reason = l := by
  have hne := find?_eq_none_iff.mp h
  have hpick : (l.running.filter fun a => a.key == k) = [] := by
    simpa [List.filter_eq_nil_iff] using hne
  have hothers : (l.running.filter fun a => !(a.key == k)) = l.running := by
    simpa [List.filter_eq_self] using hne
  simp [drop, hpick, hothers]

/-! ## Accounts are kept -/

/-- Dropping series keeps their accounts. -/
theorem accounts_drop (l : Ledger) (which : Account → Bool) (reason : DropReason) :
    (l.drop which reason).accounts.Perm l.accounts := by
  have hmap : ((l.running.filter which).map fun a => (a, reason)).map Prod.fst =
      l.running.filter which := by
    simp [Function.comp_def]
  unfold accounts drop
  rw [List.map_append, hmap, ← List.append_assoc]
  refine List.perm_append_comm.trans ?_
  rw [← List.append_assoc, ← List.append_assoc]
  exact ((List.filter_append_perm which l.running).append_right _).append_right _

/-- Returning a message keeps the account of its series. -/
theorem accounts_give (hn : (l.running.map Account.key).Nodup) (k : Key) (m : Message) :
    (l.give k m).accounts.Perm l.accounts := by
  have hperm := running_perm hn k
  unfold give
  split
  · rename_i a h
    rw [h] at hperm
    have hmiddle : (l.running.filter fun a => a.key != k) ++
        (l.returned ++ [(a, m)]).map Prod.fst ++ l.dropped.map Prod.fst =
        (l.running.filter fun a => a.key != k) ++ l.returned.map Prod.fst ++
          a :: l.dropped.map Prod.fst := by
      simp
    unfold accounts
    rw [hmiddle]
    exact List.perm_middle.trans ((hperm.append_right _).append_right _)
  · exact .refl _

/-- A message that is entered opens an account, or joins the one that is there. -/
theorem accounts_enter (hn : (l.running.map Account.key).Nodup) (k : Key) (m : Message)
    (now : Nat) :
    ∃ rest, ((l.find? k).toList ++ rest).Perm l.accounts ∧
      (l.enter k m now).accounts.Perm (l.account k m now :: rest) := by
  refine ⟨(l.running.filter fun a => a.key != k) ++ l.returned.map Prod.fst ++
    l.dropped.map Prod.fst, ?_, ?_⟩
  · rw [← List.append_assoc, ← List.append_assoc]
    exact ((running_perm hn k).append_right _).append_right _
  · unfold accounts enter
    rw [List.append_assoc, List.append_assoc, List.append_assoc]
    exact List.perm_middle

/-! ## What the counters should read -/

/-- Where the accounts are the same, the messages taken are. -/
theorem fragments_eq_of_perm {l' : Ledger} (h : l'.accounts.Perm l.accounts) :
    l'.fragments = l.fragments :=
  (h.map _).sum_nat

theorem fragments_enter (hn : (l.running.map Account.key).Nodup) (k : Key) (m : Message)
    (now : Nat) : (l.enter k m now).fragments = l.fragments + 1 := by
  obtain ⟨rest, hbefore, hafter⟩ := accounts_enter hn k m now
  have hbefore := (hbefore.map fun a => a.taken.length).sum_nat
  have hafter := (hafter.map fun a => a.taken.length).sum_nat
  have hone : (l.account k m now).taken.length =
      ((l.find? k).toList.map fun a => a.taken.length).sum + 1 := by
    unfold account
    cases l.find? k with
    | none => rfl
    | some a => simp
  rw [List.map_append, List.sum_append] at hbefore
  rw [List.map_cons, List.sum_cons] at hafter
  unfold fragments
  omega

theorem count_drop (l : Ledger) (which : Account → Bool) (reason : DropReason) (c : Counter) :
    (l.drop which reason).count c =
      l.count c + (Counts.single (.dropped reason) (l.running.countP which)).get c := by
  cases c with
  | inbound => simpa [count] using fragments_eq_of_perm (accounts_drop l which reason)
  | outbound => simp [count]
  | reassembled => simp [count, drop]
  | dropped reason' =>
    unfold count drop
    dsimp only
    rw [List.countP_append, List.countP_map, Counts.get_single]
    by_cases h : reason' = reason
    · simp [Function.comp_def, h, List.countP_eq_length_filter]
    · simp [Function.comp_def, h, Ne.symm h]

theorem count_give (hn : (l.running.map Account.key).Nodup) (h : l.find? k = some a) (m : Message)
    (c : Counter) :
    (l.give k m).count c =
      l.count c + (if 1 < a.total then Counts.single .reassembled 1 else 0).get c := by
  cases c with
  | inbound =>
    have hkept := fragments_eq_of_perm (accounts_give hn k m)
    split <;> simpa [count] using hkept
  | outbound => split <;> simp [count]
  | reassembled => simp [count, give, h]; split <;> simp
  | dropped reason => split <;> simp [count, give, h]

theorem count_enter (hn : (l.running.map Account.key).Nodup) (k : Key) (m : Message) (now : Nat)
    (c : Counter) :
    (l.enter k m now).count c = l.count c + (Counts.single .inbound 1).get c := by
  cases c with
  | inbound =>
    simpa [count] using fragments_enter hn k m now
  | outbound => simp [count]
  | reassembled => simp [count, enter]
  | dropped reason => simp [count, enter]

end Ledger

end Reassembler

end Mbim
