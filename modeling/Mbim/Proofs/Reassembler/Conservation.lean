import Mbim.Proofs.Reassembler.Ledger

/-!
# No series is lost

Every series that a push opens is returned as a message, is dropped for one reason, or is still
held; and the counters read what the books say.

* `Reassembler.Account.toPartial`: what a reassembler holds of a running series.
* `Reassembler.Mirrors`: a reassembler holds the running series of the books, and nothing else.
* `Reassembler.Posted`: one step and its entries: the counters move with the books
  (`Reassembler.Mirrors.step`, `Reassembler.Mirrors.run`).
* `Reassembler.run_ledger`: the balance of every run.
-/

namespace Mbim

namespace Reassembler

variable {r : Reassembler} {l l' : Ledger} {m : Message} {k : Key} {a : Account} {now : Nat}

/-! ## What is held of a running series -/

/-- The payloads of the messages that the series took, one after the other. -/
def Account.payload (a : Account) : Bytes := a.taken.flatMap Message.payloadBytes

/-- What a reassembler holds of the series: its fragments as one. -/
def Account.toPartial (a : Account) : Partial :=
  ⟨a.key, a.key.series ⟨a.total, UInt32.ofNat a.later.length⟩ a.payload, a.startedAt⟩

/-- The series took as many fragments as the first one announced, and the message carries their
payloads. -/
structure Account.Yields (a : Account) (m : Message) : Prop where
  complete : a.taken.length = a.total.toNat
  message : m = a.key.fragment .single a.payload

/-- The index of the fragment taken last fits its field. -/
theorem Account.toNat_current (h : Gathers a.key a.taken) :
    (UInt32.ofNat a.later.length).toNat = a.later.length := by
  have hlast : a.later.length < a.taken.length := Nat.lt_succ_self _
  obtain ⟨p, -, hp⟩ := h _ _ (List.getElem?_eq_getElem hlast)
  have hword : a.later.length < UInt32.size := by
    rw [← hp]
    exact p.current.toNat_lt
  exact UInt32.toNat_ofNat_of_lt' hword

theorem Account.received_toPartial (h : Gathers a.key a.taken) :
    a.toPartial.received = a.taken.length :=
  congrArg (· + 1) (Account.toNat_current h)

/-- With its last fragment, a series yields the message. -/
theorem Account.yields_of_toPartial (hg : Gathers a.key a.taken) {p : Position} {payload : Bytes}
    {startedAt : Nat} (h : a.toPartial = ⟨k, k.series p payload, startedAt⟩)
    (hcomplete : p.current.toNat + 1 = p.total.toNat) :
    a.Yields (k.fragment .single payload) ∧ a.total = p.total := by
  obtain ⟨rfl, hseries, -⟩ := Partial.mk.inj h
  obtain ⟨rfl, rfl⟩ := Key.series_inj hseries
  dsimp only at hcomplete
  rw [Account.toNat_current hg] at hcomplete
  exact ⟨⟨hcomplete, rfl⟩, rfl⟩

/-- A message that starts a series opens an account. -/
theorem Taken.toPartial_first {p : Position} {payload : Bytes} {startedAt : Nat}
    (ht : Taken m k now none p payload startedAt) :
    (⟨k, now, m, []⟩ : Account).toPartial = ⟨k, k.series p payload, startedAt⟩ ∧
      Gathers k [m] := by
  cases ht with
  | first hc h0 =>
    obtain rfl := hc.payload_eq
    have hplace : p = ⟨m.announced, 0⟩ := by
      obtain ⟨total, current⟩ := p
      cases h0
      simp [Message.announced, hc.position]
    refine ⟨?_, (Gathers.nil k).concat hc (by rw [h0]; rfl)⟩
    rw [hplace]
    simp [Account.toPartial, Account.payload, Account.total, Account.taken]

/-- A message that continues a series joins its account. -/
theorem Taken.toPartial_next {p : Position} {payload : Bytes} {startedAt : Nat}
    (ht : Taken m k now (some a.toPartial) p payload startedAt) (hg : Gathers a.key a.taken) :
    (a.add m).toPartial = ⟨k, k.series p payload, startedAt⟩ ∧ Gathers k (a.add m).taken := by
  generalize hold : some a.toPartial = old at ht
  cases ht with
  | first => cases hold
  | @next p q _ _ startedAt hc hinc hdue =>
    obtain rfl := hc.payload_eq
    obtain ⟨rfl, hseries, rfl⟩ := Partial.mk.inj (Option.some.inj hold)
    obtain ⟨rfl, rfl⟩ := Key.series_inj hseries
    rw [Account.toNat_current hg] at hdue
    have hcurrent : UInt32.ofNat (a.later ++ [m]).length = q.current := by
      rw [List.length_append, List.length_singleton, ← hdue, UInt32.ofNat_toNat]
    refine ⟨?_, hg.concat hc hdue⟩
    simp [Account.toPartial, Account.payload, Account.add, Account.total, Account.taken, ← hcurrent]

/-- The books mirror the reassembler: it holds the running series, every series took its fragments
in order, and those returned are complete. -/
structure Mirrors (l : Ledger) (r : Reassembler) : Prop where
  held : r.partials = l.running.map Account.toPartial
  nodup : (l.running.map Account.key).Nodup
  gathers : ∀ a ∈ l.accounts, Gathers a.key a.taken
  yields : ∀ e ∈ l.returned, e.1.Yields e.2

namespace Mirrors

theorem find?_eq (h : Mirrors l r) (k : Key) : r.find? k = (l.find? k).map Account.toPartial := by
  unfold find? Ledger.find?
  rw [h.held, List.find?_map]
  rfl

theorem filter_eq (h : Mirrors l r) (which : Account → Bool) (which' : Partial → Bool)
    (hwhich : ∀ a, which' a.toPartial = which a) :
    r.partials.filter which' = (l.running.filter which).map Account.toPartial := by
  rw [h.held, List.filter_map]
  congr 1
  exact List.filter_congr fun a _ => hwhich a

/-- A message that is taken makes the account under its key that of the series. -/
theorem account (h : Mirrors l r) {p : Position} {payload : Bytes} {startedAt : Nat}
    (ht : Taken m k now (r.find? k) p payload startedAt) :
    (l.account k m now).toPartial = ⟨k, k.series p payload, startedAt⟩ ∧
      Gathers k (l.account k m now).taken := by
  rw [h.find?_eq k] at ht
  unfold Ledger.account
  cases hfind : l.find? k with
  | none =>
    rw [hfind] at ht
    exact ht.toPartial_first
  | some a =>
    rw [hfind] at ht
    exact ht.toPartial_next (h.gathers a (Ledger.mem_accounts_of_find? hfind))

/-- With the last fragment, the account under a key yields the message. -/
theorem yields_account (h : Mirrors l r) {p : Position} {payload : Bytes} {startedAt : Nat}
    (ht : Taken m k now (r.find? k) p payload startedAt)
    (hcomplete : p.current.toNat + 1 = p.total.toNat) :
    (l.account k m now).Yields (k.fragment .single payload) ∧
      (l.account k m now).total = p.total := by
  obtain ⟨hheld, hgathers⟩ := h.account ht
  exact Account.yields_of_toPartial (by simpa using hgathers) hheld hcomplete

end Mirrors

/-! ## Entries -/

/-- A step that leaves `r'`, with its entries in the books: the counters move with what the books
say, `opened` accounts are new, and the messages `given` are returned. -/
structure Posted (l l' : Ledger) (r' : Reassembler) (counts : Counts) (opened : Nat)
    (given : List Message) : Prop where
  mirrors : Mirrors l' r'
  counted : ∀ c, l'.count c = l.count c + counts.get c
  opened : l'.accounts.length = l.accounts.length + opened
  given : l'.returned.map Prod.snd = l.returned.map Prod.snd ++ given

namespace Posted

theorem refl (h : Mirrors l r) : Posted l l r 0 0 [] where
  mirrors := h
  counted := by simp
  opened := rfl
  given := by simp

theorem trans {l'' : Ledger} {r' r'' : Reassembler} {counts counts' : Counts} {opened opened' : Nat}
    {given given' : List Message} (h : Posted l l' r' counts opened given)
    (h' : Posted l' l'' r'' counts' opened' given') :
    Posted l l'' r'' (counts + counts') (opened + opened') (given ++ given') where
  mirrors := h'.mirrors
  counted c := by rw [h'.counted, h.counted, Counts.get_add, Nat.add_assoc]
  opened := by rw [h'.opened, h.opened, Nat.add_assoc]
  given := by rw [h'.given, h.given, List.append_assoc]

end Posted

namespace Mirrors

/-- Partial messages are forgotten, and their series dropped. -/
theorem drop (h : Mirrors l r) (which : Account → Bool) (which' : Partial → Bool)
    (hwhich : ∀ a, which' a.toPartial = which a) (reason : DropReason) :
    Posted l (l.drop which reason) { r with partials := r.partials.filter fun p => !which' p }
      (Counts.single (.dropped reason) (l.running.countP which)) 0 [] where
  mirrors :=
    { held := h.filter_eq (fun a => !which a) (fun p => !which' p) fun a => by rw [hwhich]
      nodup := h.nodup.sublist (List.filter_sublist.map _)
      gathers := fun a ha => h.gathers a ((l.accounts_drop which reason).mem_iff.mp ha)
      yields := h.yields }
  counted := l.count_drop which reason
  opened := (l.accounts_drop which reason).length_eq
  given := (List.append_nil _).symm

/-- A sweep drops the series whose time is over. -/
theorem sweep (h : Mirrors l r) (now : Nat) :
    Posted l (l.drop (fun a => a.isOverdue r.timeout now) .expired) (r.live now)
      (expiries (r.expired now)).counts 0 [] := by
  have hdrop := h.drop (fun a => a.isOverdue r.timeout now) (fun p => p.isExpired r.timeout now)
    (fun _ => rfl) .expired
  have hlength : (r.expired now).length = l.running.countP fun a => a.isOverdue r.timeout now := by
    unfold expired
    rw [h.filter_eq (fun a => a.isOverdue r.timeout now) _ fun _ => rfl, List.length_map,
      List.countP_eq_length_filter]
  rw [← hlength] at hdrop
  exact hdrop

theorem dropKey (h : Mirrors l r) (ha : l.find? k = some a) (reason : DropReason) :
    Posted l (l.drop (fun a => a.key == k) reason) (r.without k)
      (Counts.single (.dropped reason) 1) 0 [] := by
  have hdrop := h.drop (fun a => a.key == k) (fun p => p.key == k) (fun _ => rfl) reason
  rw [Ledger.countP_of_find? h.nodup ha] at hdrop
  exact hdrop

/-- The series under a key is returned as a message. -/
theorem give (h : Mirrors l r) (ha : l.find? k = some a) (hm : a.Yields m) :
    Posted l (l.give k m) (r.without k) (if 1 < a.total then Counts.single .reassembled 1 else 0)
      0 [m] where
  mirrors := by
    have hgive : l.give k m = { l with
        running := l.running.filter fun a => a.key != k
        returned := l.returned ++ [(a, m)] } := by
      simp [Ledger.give, ha]
    constructor
    case held =>
      rw [hgive]
      exact h.filter_eq _ _ fun _ => rfl
    case nodup =>
      rw [hgive]
      exact h.nodup.sublist (List.filter_sublist.map _)
    case gathers =>
      intro b hb
      exact h.gathers b ((Ledger.accounts_give h.nodup k m).mem_iff.mp hb)
    case yields =>
      intro e he
      rw [hgive] at he
      obtain he | he := List.mem_append.mp he
      · exact h.yields e he
      · obtain rfl := List.mem_singleton.mp he
        exact hm
  counted := Ledger.count_give h.nodup ha m
  opened := (Ledger.accounts_give h.nodup k m).length_eq
  given := by simp [Ledger.give, ha]

theorem enter (h : Mirrors l r) {p : Position} {payload : Bytes} {startedAt : Nat}
    (ht : Taken m k now (r.find? k) p payload startedAt) :
    Posted l (l.enter k m now) ((r.without k).keep ⟨k, k.series p payload, startedAt⟩)
      (Counts.single .inbound 1) (r.find? k).isNone.toNat [] := by
  obtain ⟨hheld, hgathers⟩ := h.account ht
  obtain ⟨rest, hbefore, hafter⟩ := Ledger.accounts_enter h.nodup k m now
  constructor
  case mirrors =>
    constructor
    case held =>
      show r.partials.filter _ ++ [_] = List.map _ (_ ++ [_])
      rw [List.map_append, List.map_cons, List.map_nil, hheld]
      congr 1
      exact h.filter_eq _ _ fun _ => rfl
    case nodup => exact Ledger.nodup_enter h.nodup k m now
    case gathers =>
      intro b hb
      obtain rfl | hb := List.mem_cons.mp (hafter.mem_iff.mp hb)
      · rw [Ledger.key_account]
        exact hgathers
      · exact h.gathers b (hbefore.mem_iff.mp (List.mem_append_right _ hb))
    case yields => exact h.yields
  case counted => exact Ledger.count_enter h.nodup k m now
  case opened =>
    have hlength := hbefore.length_eq
    rw [List.length_append] at hlength
    rw [hafter.length_eq, List.length_cons, ← hlength, h.find?_eq]
    cases l.find? k with
    | none => simp
    | some a => simp [Nat.add_comm]
  case given => exact (List.append_nil _).symm

end Mirrors

/-! ## One operation -/

/-- Whether the message starts a series: it is of a kind with fragments, none is held under its key,
and it is a first fragment. -/
def starts (r : Reassembler) (m : Message) : Bool :=
  match m.key?, Series.ofFirst m with
  | some k, .ok _ => (r.find? k).isNone
  | _, _ => false

/-- Whether the operation starts a series, after the sweep that it makes. -/
def opens (r : Reassembler) : Op → Bool
  | .push m now => (r.live now).starts m
  | .sweep _ => false

/-- The message of a kind with fragments that is returned, if one is. -/
def Answer.given : Answer → List Message
  | .pushed (.ok (some m)) => if m.isFragment then [m] else []
  | _ => []

/-- A message without a key that passes is of a kind without fragments. -/
theorem given_of_key?_eq_none (h : m.key? = none) : (Answer.pushed (.ok (some m))).given = [] := by
  have hfragment : ¬ m.isFragment := by
    rw [Message.isFragment_iff, h]
    simp
  exact if_neg hfragment

theorem given_fragment (hk : k.kind.isFragment) (payload : Bytes) :
    (Answer.pushed (.ok (some (k.fragment .single payload)))).given =
      [k.fragment .single payload] := by
  have hfragment : (k.fragment .single payload).isFragment :=
    Message.isFragment_iff.mpr ⟨k, Key.key?_fragment hk _ _⟩
  exact if_pos hfragment

theorem starts_of_find?_eq_some (hk : m.key? = some k) {p : Partial} (h : r.find? k = some p) :
    r.starts m = false := by
  unfold starts
  rw [hk]
  cases Series.ofFirst m <;> simp [h]

/-- A message that is taken starts a series if none is there. -/
theorem Taken.starts_eq {p : Position} {payload : Bytes} {startedAt : Nat}
    (ht : Taken m k now (r.find? k) p payload startedAt) : r.starts m = (r.find? k).isNone := by
  generalize hfind : r.find? k = old at ht
  cases ht with
  | first hc h0 => simp [starts, hc.key, Series.ofFirst_of_carries hc h0, hfind]
  | next hc => rw [starts_of_find?_eq_some hc.key hfind, Option.isNone_some]

theorem starts_of_key?_eq_none (h : m.key? = none) : r.starts m = false := by
  simp [starts, h]

namespace Mirrors

/-- A message under a key, with the entries for its answer. -/
theorem record (h : Mirrors l r) (hs : r.Sound) (hk : m.key? = some k) (now : Nat) :
    Posted l (l.record k m now (r.accept m now).result) (r.accept m now).next
      (r.accept m now).report.counts (r.starts m).toNat
      (Answer.pushed (r.accept m now).result).given := by
  have hhandled := hs.handled hk now
  generalize r.accept m now = step at hhandled ⊢
  cases hhandled with
  | refused _ free first =>
    have hnone : l.find? k = none := by simpa [free] using (h.find?_eq k).symm
    have hstarts : r.starts m = false := by simp [starts, hk, first]
    simp only [Ledger.record, Ledger.drop_of_find?_eq_none hnone, without_of_find?_eq_none free,
      hstarts]
    exact .refl h
  | @broken e old _ found =>
    obtain ⟨a, ha, -⟩ := Option.map_eq_some_iff.mp ((h.find?_eq k).symm.trans found)
    rw [starts_of_find?_eq_some hk found]
    exact h.dropKey ha e.dropReason
  | oversized taken =>
    have hfound := l.find?_enter k m now
    have henter := h.enter taken
    have hdrop := henter.mirrors.dropKey hfound .oversized
    rw [without_keep] at hdrop
    rw [taken.starts_eq]
    exact henter.trans hdrop
  | @last p payload _ taken _ _ complete =>
    obtain ⟨hyields, htotal⟩ := h.yields_account taken complete
    have henter := h.enter taken
    have hgive := henter.mirrors.give (l.find?_enter k m now) hyields
    rw [without_keep, htotal] at hgive
    have hcounts : (if 1 < p.total then Report.counted .inbound ++ .counted .reassembled
        else .counted .inbound).counts =
          Counts.single .inbound 1 + if 1 < p.total then Counts.single .reassembled 1 else 0 := by
      split <;> rfl
    rw [taken.starts_eq, hcounts, given_fragment (Message.isFragment_of_key? hk)]
    exact henter.trans hgive
  | pending taken =>
    rw [taken.starts_eq]
    exact h.enter taken

theorem step (h : Mirrors l r) (hs : r.Sound) (op : Op) :
    Posted l (l.post r.timeout op (r.step op).result) (r.step op).next (r.step op).report.counts
      (r.opens op).toNat (r.step op).result.given := by
  cases op with
  | sweep now => exact h.sweep now
  | push m now =>
    have hsweep := h.sweep now
    show Posted l (l.post r.timeout _ (.pushed (r.push m now).result)) (r.push m now).next
      (r.push m now).report.counts ((r.live now).starts m).toNat
      (Answer.pushed (r.push m now).result).given
    rw [hs.push_eq]
    cases hk : m.key? with
    | some k =>
      have hboth := hsweep.trans (hsweep.mirrors.record (hs.live now) hk now)
      rw [Nat.zero_add] at hboth
      simp only [Ledger.post, hk]
      exact hboth
    | none =>
      have hboth := hsweep.trans (.refl hsweep.mirrors)
      rw [starts_of_key?_eq_none hk]
      simp only [Ledger.post, hk]
      obtain ⟨hd, hheader, ha⟩ | ⟨e, -, ha⟩ := accept_of_key?_eq_none (r := r.live now) hk now
      · rw [ha]
        show Posted _ _ _ _ _ (Answer.pushed (.ok (some m))).given
        rw [given_of_key?_eq_none hk]
        exact hboth
      · rw [ha]
        exact hboth

end Mirrors

/-! ## Runs -/

/-- The sum of what the operations of a run come to, each where it is made. -/
def along (f : Reassembler → Op → Nat) (r : Reassembler) : List Op → Nat
  | [] => 0
  | op :: ops => f r op + (r.step op).next.along f ops

/-- The number of operations of a run that start a series. -/
def openings : Reassembler → List Op → Nat := along fun r op => (r.opens op).toNat

/-- The number of partial messages that the sweeps of a run remove. -/
def evictions : Reassembler → List Op → Nat := along fun r op => r.size - (r.live op.now).size

/-- The increments of the counters over a run. -/
def tally (results : List (Answer × Report)) : Counts := (results.map fun e => e.2.counts).sum

theorem tally_cons (r : Reassembler) (op : Op) (ops : List Op) :
    tally (r.run (op :: ops)).1 =
      (r.step op).report.counts + tally ((r.step op).next.run ops).1 := rfl

theorem tally_append (as bs : List (Answer × Report)) :
    tally (as ++ bs) = tally as + tally bs := by
  induction as with
  | nil => exact (Counts.zero_add _).symm
  | cons a as ih =>
    show a.2.counts + tally (as ++ bs) = a.2.counts + tally as + tally bs
    rw [ih, Counts.add_assoc]

/-- The messages of kinds with fragments that a run returns. -/
def given (results : List (Answer × Report)) : List Message := results.flatMap fun e => e.1.given

theorem mirrors_empty (limit : Limit) (timeout : Nat) : Mirrors .empty (new limit timeout) where
  held := rfl
  nodup := List.nodup_nil
  gathers a ha := by cases ha
  yields e he := by cases he

theorem Mirrors.run (h : Mirrors l r) (hs : r.Sound) (ops : List Op) :
    Posted l (l.postAll r.timeout ops ((r.run ops).1.map Prod.fst)) (r.run ops).2
      (tally (r.run ops).1) (r.openings ops) (given (r.run ops).1) := by
  induction ops generalizing l r with
  | nil => exact .refl h
  | cons op ops ih =>
    have hstep := h.step hs op
    have hrest := ih hstep.mirrors (hs.step op)
    rw [(hs.limits_step op).2] at hrest
    exact hstep.trans hrest

/-- A message is never refused because the time of a series is over. -/
theorem dropReason_ne_expired (e : SeriesError) : e.dropReason ≠ .expired := by
  cases e <;> simp [SeriesError.dropReason]

theorem Sound.expired_accept (hs : r.Sound) (m : Message) (now : Nat) :
    (r.accept m now).report.counts.get (.dropped .expired) = 0 := by
  cases hk : m.key? with
  | none =>
    obtain ⟨hd, -, ha⟩ | ⟨e, -, ha⟩ := accept_of_key?_eq_none (r := r) hk now <;> simp [ha]
  | some k =>
    have hhandled := hs.handled hk now
    generalize r.accept m now = step at hhandled ⊢
    cases hhandled with
    | refused => simp
    | @broken e => simp [Report.one, Ne.symm (dropReason_ne_expired e)]
    | oversized => simp [Report.one, Report.counted]
    | last => split <;> simp [Report.counted]
    | pending => simp [Report.counted]

theorem size_sub_live (r : Reassembler) (now : Nat) :
    r.size - (r.live now).size = (r.expired now).length := by
  have hsplit := (List.filter_append_perm (fun p => p.isExpired r.timeout now)
    r.partials).length_eq
  rw [List.length_append] at hsplit
  unfold size expired live
  dsimp only
  omega

/-- Where a sweep removes nothing, nothing has expired. -/
theorem expired_eq_nil (h : r.live now = r) : r.expired now = [] := by
  have hlength := size_sub_live r now
  rw [h, Nat.sub_self] at hlength
  exact List.eq_nil_of_length_eq_zero hlength.symm

/-- A sweep, and nothing else, counts what it removes as expired. -/
theorem Sound.expired_step (hs : r.Sound) (op : Op) :
    (r.step op).report.counts.get (.dropped .expired) = r.size - (r.live op.now).size := by
  rw [size_sub_live]
  cases op with
  | sweep now =>
    show (expiries (r.expired now)).counts.get _ = _
    simp [expiries, Op.now]
  | push m now =>
    show (r.push m now).report.counts.get _ = _
    rw [hs.push_eq]
    simp [Step.after, expiries, (hs.live now).expired_accept, Op.now]

/-- Over a run, the series that expire are the ones that sweeps remove. -/
theorem Sound.expired_run (hs : r.Sound) (ops : List Op) :
    (tally (r.run ops).1).get (.dropped .expired) = r.evictions ops := by
  induction ops generalizing r with
  | nil => rfl
  | cons op ops ih =>
    rw [tally_cons, Counts.get_add, hs.expired_step, ih (hs.step op)]
    rfl

/-! ## The balance -/

namespace Ledger

@[simp] theorem count_empty (c : Counter) : empty.count c = 0 := by
  cases c <;> rfl

theorem length_accounts (l : Ledger) :
    l.accounts.length = l.running.length + l.returned.length + l.dropped.length := by
  simp [accounts, Nat.add_assoc]

private theorem length_eq_reasons (es : List (Account × DropReason)) :
    es.length = (es.countP fun e => e.2 == .sequence) + (es.countP fun e => e.2 == .malformed) +
      (es.countP fun e => e.2 == .oversized) + (es.countP fun e => e.2 == .expired) := by
  induction es with
  | nil => rfl
  | cons e es ih =>
    obtain ⟨a, reason⟩ := e
    cases reason <;> simp <;> omega

/-- Every series that is dropped is counted under one reason. -/
theorem length_dropped {counts : Counts} (h : ∀ c, l.count c = counts.get c) :
    l.dropped.length = counts.dropped := by
  have hsequence : (l.dropped.countP fun e => e.2 == .sequence) = counts.sequence :=
    h (.dropped .sequence)
  have hmalformed : (l.dropped.countP fun e => e.2 == .malformed) = counts.malformed :=
    h (.dropped .malformed)
  have hoversized : (l.dropped.countP fun e => e.2 == .oversized) = counts.oversized :=
    h (.dropped .oversized)
  have hexpired : (l.dropped.countP fun e => e.2 == .expired) = counts.expired :=
    h (.dropped .expired)
  rw [length_eq_reasons, hsequence, hmalformed, hoversized, hexpired]
  rfl

end Ledger

/-- The messages taken, by what became of their series. -/
theorem Mirrors.fragments_eq (h : Mirrors l r) :
    l.fragments = (l.returned.map fun e => e.1.total.toNat).sum +
      (r.partials.map Partial.received).sum + (l.dropped.map fun e => e.1.taken.length).sum := by
  have hrunning : r.partials.map Partial.received = l.running.map fun a => a.taken.length := by
    rw [h.held, List.map_map]
    refine List.map_congr_left fun a ha => Account.received_toPartial (h.gathers a ?_)
    exact List.mem_append_left _ (List.mem_append_left _ ha)
  have hreturned : (l.returned.map fun e => e.1.total.toNat) =
      l.returned.map fun e => e.1.taken.length :=
    List.map_congr_left fun e he => (h.yields e he).complete.symm
  rw [hrunning, hreturned]
  unfold Ledger.fragments Ledger.accounts
  simp only [List.map_append, List.sum_append, List.map_map, Function.comp_def]
  omega

/-- Whatever comes in and whatever the clock reads: every series that is started is returned, is
dropped for one reason, or is still held, and the counters say so. The books tell which messages
each series took, and what it is returned as. -/
theorem run_ledger (limit : Limit) (timeout : Nat) (ops : List Op) :
    let start := new limit timeout
    let results := (start.run ops).1
    let r := (start.run ops).2
    let counts := tally results
    let books := Ledger.empty.postAll timeout ops (results.map Prod.fst)
    start.openings ops = (given results).length + counts.dropped + r.size ∧
      counts.inbound = (books.returned.map fun e => e.1.total.toNat).sum +
        (r.partials.map Partial.received).sum +
        (books.dropped.map fun e => e.1.taken.length).sum ∧
      counts.reassembled = (books.returned.countP fun e => decide (1 < e.1.total)) ∧
      counts.expired = start.evictions ops ∧
      (∀ reason, (books.dropped.countP fun e => e.2 == reason) = counts.get (.dropped reason)) ∧
      books.returned.map Prod.snd = given results ∧
      (∀ e ∈ books.returned, e.1.Yields e.2) ∧
      ∀ a ∈ books.accounts, Gathers a.key a.taken := by
  intro start results r counts books
  have hs : start.Sound := sound_new limit timeout
  have hposted : Posted .empty books r counts (start.openings ops) (given results) :=
    (mirrors_empty limit timeout).run hs ops
  have hmirrors := hposted.mirrors
  have hcount : ∀ c, books.count c = counts.get c := by
    intro c
    rw [hposted.counted, Ledger.count_empty, Nat.zero_add]
  have hgiven : books.returned.map Prod.snd = given results := hposted.given
  refine ⟨?_, ?_, ?_, ?_, ?_, hgiven, hmirrors.yields, hmirrors.gathers⟩
  · have hopened : books.accounts.length = start.openings ops := by
      rw [hposted.opened]
      exact Nat.zero_add _
    have hheld : r.size = books.running.length := by
      unfold size
      rw [hmirrors.held, List.length_map]
    rw [← hopened, books.length_accounts, Ledger.length_dropped hcount, hheld, ← hgiven,
      List.length_map]
    omega
  · rw [← hmirrors.fragments_eq]
    exact (hcount .inbound).symm
  · exact (hcount .reassembled).symm
  · exact hs.expired_run ops
  · exact fun reason => hcount (.dropped reason)

/-- Of three series one is returned, one is broken off, and one expires. -/
example :
    let ops := [.push (Key.fragment ⟨.command, 7⟩ ⟨2, 0⟩ [1]) 0,
      .push (Key.fragment ⟨.command, 7⟩ ⟨2, 1⟩ [2]) 1,
      .push (Key.fragment ⟨.command, 8⟩ ⟨3, 0⟩ [3]) 1,
      .push (Key.fragment ⟨.command, 8⟩ ⟨3, 2⟩ [4]) 2,
      .push (Key.fragment ⟨.indication, 7⟩ ⟨2, 0⟩ []) 3,
      .sweep 103]
    let start := new ⟨64, by decide⟩ 100
    start.openings ops = 3 ∧ start.evictions ops = 1 ∧
      given (start.run ops).1 = [Key.fragment ⟨.command, 7⟩ .single [1, 2]] ∧
      tally (start.run ops).1 = ⟨4, 0, 1, 1, 0, 0, 1⟩ := by
  decide

end Reassembler

end Mbim
