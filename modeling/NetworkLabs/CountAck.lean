import NetworkLabs.Transition
import Mathlib.Data.Set.Insert
import Mathlib.Data.List.Infix

/-! Numbered in-order transfer over a lossy, reordering, duplicating medium, acknowledged
by anonymous acknowledgements that the sender only counts. -/
namespace CountAck

open Transition

/-- A numbered message. -/
abbrev Item (τ : Type) := Nat × τ

/-- What the receiving side is doing with the item it took last. -/
inductive Phase (τ : Type)
  | idle
  | taken (x : Item τ)
  | unacked
  | uncounted

/-- The sending side: what it issued, how many acknowledgements it counted, the copies
it still keeps, and whether it still serves the receiver. -/
structure Tx (τ : Type) where
  issued : List (Item τ)
  acked : Nat
  held : Set (Item τ)
  listed : Prop

/-- The receiving side. -/
structure Rx (τ : Type) where
  accepted : List (Item τ)
  expected : Nat
  phase : Phase τ

structure State (τ : Type) where
  tx : Tx τ
  rx : Rx τ
  data : Set (Item τ)
  acks : Nat

variable {τ : Type} {s t : State τ} {x : Item τ}

/-- One move of the sending side, with the item it puts on the medium. -/
inductive TxMove : Tx τ → Option (Item τ) → Tx τ → Prop
  | stay (p : Tx τ) : TxMove p none p
  | issue (p : Tx τ) (m : τ) : TxMove p none
      { p with issued := p.issued ++ [(p.issued.length + 1, m)],
               held := insert (p.issued.length + 1, m) p.held }
  | transmit (p : Tx τ) (x : Item τ) (hx : x ∈ p.held) : TxMove p (some x) p
  | forget (p : Tx τ) (held' : Set (Item τ)) (hsub : held' ⊆ p.held)
      (hold : ∀ x ∈ p.held, x ∈ held' ∨ x.1 ≤ p.acked) : TxMove p none { p with held := held' }
  | unlist (p : Tx τ) (held' : Set (Item τ)) (hsub : held' ⊆ p.held) :
      TxMove p none { p with held := held', listed := False }

/-- One move of the receiving side, with the item it takes off the medium and the number
of acknowledgements it sends. -/
inductive RxMove : Rx τ → Option (Item τ) → Nat → Rx τ → Prop
  | stay (p : Rx τ) : RxMove p none 0 p
  | take (p : Rx τ) (x : Item τ) (hp : p.phase = .idle) (hx : x.1 = p.expected) :
      RxMove p (some x) 0 { p with phase := .taken x }
  | accept (p : Rx τ) (x : Item τ) (hp : p.phase = .taken x) :
      RxMove p none 0 { p with accepted := p.accepted ++ [x], phase := .unacked }
  | ack (p : Rx τ) (hp : p.phase = .unacked) : RxMove p none 1 { p with phase := .uncounted }
  | count (p : Rx τ) (hp : p.phase = .uncounted) :
      RxMove p none 0 { p with expected := p.expected + 1, phase := .idle }

inductive Label
  | send
  | recv
  | acked
  | lose
  | repeatAck

/-- The medium may lose or keep what it carries at every step; data are a set, so a copy
may be delivered any number of times, while only `repeatAck` duplicates acknowledgements. -/
inductive Step : State τ → Label → State τ → Prop
  | send {s : State τ} {e : Option (Item τ)} {tx' : Tx τ} {data' : Set (Item τ)} {acks' : Nat}
      (h : TxMove s.tx e tx') (hd : ∀ x ∈ data', x ∈ s.data ∨ e = some x) (ha : acks' ≤ s.acks) :
      Step s .send ⟨tx', s.rx, data', acks'⟩
  | recv {s : State τ} {i : Option (Item τ)} {k : Nat} {rx' : Rx τ} {data' : Set (Item τ)}
      {acks' : Nat} (h : RxMove s.rx i k rx') (hi : ∀ x, i = some x → x ∈ s.data)
      (hd : data' ⊆ s.data) (ha : acks' ≤ s.acks + k) : Step s .recv ⟨s.tx, rx', data', acks'⟩
  | acked {s : State τ} {data' : Set (Item τ)} {acks' : Nat} (hd : data' ⊆ s.data)
      (ha : acks' < s.acks) :
      Step s .acked ⟨{ s.tx with acked := s.tx.acked + 1 }, s.rx, data', acks'⟩
  | lose {s : State τ} {data' : Set (Item τ)} {acks' : Nat} (hd : data' ⊆ s.data)
      (ha : acks' ≤ s.acks) : Step s .lose ⟨s.tx, s.rx, data', acks'⟩
  | repeatAck {s : State τ} {data' : Set (Item τ)} {acks' : Nat} (hd : data' ⊆ s.data) :
      Step s .repeatAck ⟨s.tx, s.rx, data', acks'⟩

def lts (τ : Type) : LTS (State τ) Label := ⟨Step⟩

/-- Consecutive numbers from one. -/
def Numbered (xs : List (Item τ)) : Prop := ∀ i (h : i < xs.length), xs[i].1 = i + 1

/-- Items taken in and not yet counted by `expected`. -/
def Phase.pending : Phase τ → Nat
  | .idle | .taken _ => 0
  | .unacked | .uncounted => 1

/-- Items accepted and not yet acknowledged. -/
def Phase.owed : Phase τ → Nat
  | .unacked => 1
  | _ => 0

/-- Every copy anywhere is one the sender issued, and the receiver has taken in an
initial part of what was issued. -/
structure InOrder (s : State τ) : Prop where
  numbered : Numbered s.tx.issued
  held_issued : ∀ x ∈ s.tx.held, x ∈ s.tx.issued
  data_issued : ∀ x ∈ s.data, x ∈ s.tx.issued
  accepted_prefix : s.rx.accepted <+: s.tx.issued
  expected : s.rx.expected + s.rx.phase.pending = s.rx.accepted.length + 1
  taken : ∀ x, s.rx.phase = .taken x → x ∈ s.tx.issued ∧ x.1 = s.rx.expected

/-- The sender never counts more than was accepted, and keeps a copy of every item it
has not counted as acknowledged. -/
structure Counted (s : State τ) : Prop where
  acks : s.tx.acked + s.acks + s.rx.phase.owed ≤ s.rx.accepted.length
  kept : s.tx.listed → ∀ x ∈ s.tx.issued, x.1 ≤ s.tx.acked ∨ x ∈ s.tx.held

theorem Numbered.append {xs : List (Item τ)} (h : Numbered xs) (m : τ) :
    Numbered (xs ++ [(xs.length + 1, m)]) := by
  intro i hi
  rcases Nat.lt_or_ge i xs.length with hlt | hge
  · simpa [List.getElem_append_left hlt] using h i hlt
  · have heq : i = xs.length := by simp at hi; omega
    subst heq
    simp

theorem Numbered.getElem_of_mem {xs : List (Item τ)} (h : Numbered xs) (hx : x ∈ xs) :
    ∃ hi : x.1 - 1 < xs.length, xs[x.1 - 1] = x ∧ 0 < x.1 := by
  obtain ⟨i, hi, he⟩ := List.mem_iff_getElem.mp hx
  have hn := h i hi
  rw [he] at hn
  have hix : x.1 - 1 = i := by omega
  subst hix
  exact ⟨hi, he, by omega⟩

/-- The item that carries the next number continues the accepted part. -/
theorem Numbered.prefix_snoc {xs ys : List (Item τ)} (h : Numbered xs) (hp : ys <+: xs)
    (hx : x ∈ xs) (hn : x.1 = ys.length + 1) : ys ++ [x] <+: xs := by
  obtain ⟨hi, he, _⟩ := h.getElem_of_mem hx
  have hlen : ys.length < xs.length := by omega
  have hget : xs[ys.length] = x := by simpa [hn] using he
  have htake : ys ++ [x] = xs.take (ys.length + 1) := by
    rw [List.take_add_one, ← List.prefix_iff_eq_take.mp hp, List.getElem?_eq_getElem hlen, hget]
    rfl
  rw [htake]
  exact List.take_prefix _ _

/-- What is issued with a number the receiver has passed was accepted. -/
theorem Numbered.mem_prefix {xs ys : List (Item τ)} (h : Numbered xs) (hp : ys <+: xs)
    (hx : x ∈ xs) (hn : x.1 ≤ ys.length) : x ∈ ys := by
  obtain ⟨hi, he, hpos⟩ := h.getElem_of_mem hx
  rw [← he, ← hp.getElem (by omega : x.1 - 1 < ys.length)]
  exact List.getElem_mem _

theorem TxMove.acked_eq {p p' : Tx τ} {e : Option (Item τ)} (h : TxMove p e p') :
    p'.acked = p.acked := by
  cases h <;> rfl

theorem TxMove.mem_issued {p p' : Tx τ} {e : Option (Item τ)} (h : TxMove p e p')
    (hx : x ∈ p.issued) : x ∈ p'.issued := by
  cases h with
  | issue m => exact List.mem_append_left _ hx
  | stay | transmit | forget | unlist => exact hx

/-- What is accepted is owed an acknowledgement until one is sent. -/
theorem RxMove.owed_add {p p' : Rx τ} {i : Option (Item τ)} {k : Nat} (h : RxMove p i k p') :
    p'.phase.owed + k + p.accepted.length = p.phase.owed + p'.accepted.length := by
  cases h <;> simp_all [Phase.owed]
  omega

theorem Step.acked_le {a : Label} (h : Step s a t) : s.tx.acked ≤ t.tx.acked := by
  cases h with
  | send h _ _ => exact h.acked_eq.ge
  | acked _ _ => exact Nat.le_succ _
  | recv _ _ _ _ | lose _ _ | repeatAck _ => exact Nat.le_refl _

theorem inOrder_txMove {e : Option (Item τ)} {p : Tx τ} (h : TxMove s.tx e p) (hs : InOrder s) :
    InOrder { s with tx := p } ∧ ∀ x, e = some x → x ∈ p.issued := by
  obtain ⟨⟨issued, acked, held, listed⟩, rx, data, acks⟩ := s
  obtain ⟨hnum, hheld, hdata, hacc, hexp, htaken⟩ := hs
  cases h with
  | stay => exact ⟨⟨hnum, hheld, hdata, hacc, hexp, htaken⟩, by simp⟩
  | issue m =>
    refine ⟨⟨hnum.append m, ?_, ?_, ?_, hexp, ?_⟩, by simp⟩
    · rintro x (rfl | hx)
      · simp
      · exact List.mem_append_left _ (hheld x hx)
    · exact fun x hx => List.mem_append_left _ (hdata x hx)
    · exact hacc.trans (List.prefix_append _ _)
    · intro x hx
      exact ⟨List.mem_append_left _ (htaken x hx).1, (htaken x hx).2⟩
  | transmit x hx =>
    refine ⟨⟨hnum, hheld, hdata, hacc, hexp, htaken⟩, ?_⟩
    rintro y ⟨⟩
    exact hheld _ hx
  | forget held' hsub hold =>
    exact ⟨⟨hnum, fun x hx => hheld x (hsub hx), hdata, hacc, hexp, htaken⟩, by simp⟩
  | unlist held' hsub =>
    exact ⟨⟨hnum, fun x hx => hheld x (hsub hx), hdata, hacc, hexp, htaken⟩, by simp⟩

theorem inOrder_rxMove {i : Option (Item τ)} {k : Nat} {p : Rx τ} (h : RxMove s.rx i k p)
    (hi : ∀ x, i = some x → x ∈ s.data) (hs : InOrder s) : InOrder { s with rx := p } := by
  obtain ⟨tx, ⟨accepted, expected, phase⟩, data, acks⟩ := s
  obtain ⟨hnum, hheld, hdata, hacc, hexp, htaken⟩ := hs
  cases h with
  | stay => exact ⟨hnum, hheld, hdata, hacc, hexp, htaken⟩
  | take x hp hx =>
    simp only at hp hx hexp
    subst hp
    refine ⟨hnum, hheld, hdata, hacc, hexp, ?_⟩
    rintro y ⟨⟩
    exact ⟨hdata _ (hi _ rfl), hx⟩
  | accept x hp =>
    simp only at hp hexp htaken
    subst hp
    obtain ⟨hx, hn⟩ := htaken x rfl
    have hlen : expected = accepted.length + 1 := by simpa [Phase.pending] using hexp
    refine ⟨hnum, hheld, hdata, hnum.prefix_snoc hacc hx (hn.trans hlen), ?_, by simp⟩
    simp [Phase.pending, hlen]
  | ack hp =>
    simp only at hp hexp
    subst hp
    exact ⟨hnum, hheld, hdata, hacc, hexp, by simp⟩
  | count hp =>
    simp only at hp hexp
    subst hp
    refine ⟨hnum, hheld, hdata, hacc, ?_, by simp⟩
    simp [Phase.pending] at hexp ⊢
    omega

theorem inOrder_medium {data' : Set (Item τ)} {acks' : Nat} (hs : InOrder s)
    (hd : ∀ x ∈ data', x ∈ s.tx.issued) : InOrder { s with data := data', acks := acks' } :=
  ⟨hs.numbered, hs.held_issued, hd, hs.accepted_prefix, hs.expected, hs.taken⟩

/-- In-order delivery survives loss, reordering and repetition of everything. -/
theorem inOrder_step {a : Label} (h : Step s a t) (hs : InOrder s) : InOrder t := by
  cases h with
  | send hm hd _ =>
    obtain ⟨hs', he⟩ := inOrder_txMove hm hs
    apply inOrder_medium hs'
    intro x hx
    rcases hd x hx with hx | hx
    · exact hs'.data_issued x hx
    · exact he x hx
  | recv hm hi hd _ =>
    have hs' := inOrder_rxMove hm hi hs
    exact inOrder_medium hs' (fun x hx => hs'.data_issued x (hd hx))
  | acked hd _ =>
    exact ⟨hs.numbered, hs.held_issued, fun x hx => hs.data_issued x (hd hx),
      hs.accepted_prefix, hs.expected, hs.taken⟩
  | lose hd _ => exact inOrder_medium hs (fun x hx => hs.data_issued x (hd hx))
  | repeatAck hd => exact inOrder_medium hs (fun x hx => hs.data_issued x (hd hx))

/-- While the receiver is served, what is not counted as acknowledged is kept. -/
def Tx.Kept (p : Tx τ) : Prop := p.listed → ∀ x ∈ p.issued, x.1 ≤ p.acked ∨ x ∈ p.held

theorem TxMove.kept {p p' : Tx τ} {e : Option (Item τ)} (h : TxMove p e p') (hp : p.Kept) :
    p'.Kept := by
  cases h with
  | stay => exact hp
  | issue m =>
    intro hl x hx
    rcases List.mem_append.mp hx with hx | hx
    · exact (hp hl x hx).imp_right (Set.mem_insert_of_mem _)
    · rw [List.mem_singleton] at hx
      exact Or.inr (hx ▸ Set.mem_insert _ _)
  | transmit x hx => exact hp
  | forget held' hsub hold =>
    intro hl x hx
    rcases hp hl x hx with hle | hh
    · exact Or.inl hle
    · exact (hold x hh).symm
  | unlist held' hsub => exact fun hl => hl.elim

/-- Counting one more acknowledgement only lets go of copies. -/
theorem Tx.Kept.count {p : Tx τ} (hp : p.Kept) : Tx.Kept { p with acked := p.acked + 1 } :=
  fun hl x hx => (hp hl x hx).imp_left Nat.le_succ_of_le

/-- The receiver accepts greater and greater numbers. -/
structure Rx.Increasing (p : Rx τ) : Prop where
  pairwise : p.accepted.Pairwise fun x y => x.1 < y.1
  below : ∀ x ∈ p.accepted, x.1 < p.expected + p.phase.pending
  taken : ∀ x, p.phase = .taken x → x.1 = p.expected

theorem RxMove.increasing {p p' : Rx τ} {i : Option (Item τ)} {k : Nat} (h : RxMove p i k p')
    (hp : p.Increasing) : p'.Increasing := by
  obtain ⟨hpairwise, hbelow, htaken⟩ := hp
  cases h with
  | stay => exact ⟨hpairwise, hbelow, htaken⟩
  | take x hph hx =>
    rw [hph] at hbelow
    refine ⟨hpairwise, hbelow, ?_⟩
    intro y hy
    cases hy
    exact hx
  | accept x hph =>
    have hx := htaken x hph
    rw [hph] at hbelow
    refine ⟨?_, ?_, by simp⟩
    · refine List.pairwise_append.mpr ⟨hpairwise, List.pairwise_singleton _ _, ?_⟩
      intro y hy z hz
      rw [List.mem_singleton.mp hz, hx]
      exact hbelow y hy
    · intro y hy
      rcases List.mem_append.mp hy with hy | hy
      · exact Nat.lt_succ_of_lt (hbelow y hy)
      · rw [List.mem_singleton.mp hy, hx]
        exact Nat.lt_succ_self _
  | ack hph =>
    rw [hph] at hbelow
    exact ⟨hpairwise, hbelow, by simp⟩
  | count hph =>
    rw [hph] at hbelow
    exact ⟨hpairwise, hbelow, by simp⟩

theorem counted_txMove {e : Option (Item τ)} {p : Tx τ} (h : TxMove s.tx e p)
    (hs : Counted s) : Counted { s with tx := p } := by
  have hkept : p.Kept := h.kept hs.kept
  refine ⟨?_, hkept⟩
  simp only [h.acked_eq]
  exact hs.acks

theorem counted_rxMove {i : Option (Item τ)} {k : Nat} {p : Rx τ} (h : RxMove s.rx i k p)
    (hs : Counted s) :
    s.tx.acked + (s.acks + k) + p.phase.owed ≤ p.accepted.length := by
  obtain ⟨tx, ⟨accepted, expected, phase⟩, data, acks⟩ := s
  have hacks := hs.acks
  cases h <;> simp_all [Phase.owed]
  all_goals omega

/-- Without repeated acknowledgements the count never overtakes the receiver. -/
theorem counted_step {a : Label} (h : Step s a t) (ha : a ≠ .repeatAck) (hs : Counted s) :
    Counted t := by
  cases h with
  | send hm _ hk =>
    have hs' := counted_txMove hm hs
    have hle := hs'.acks
    exact ⟨by simp only at hle ⊢; omega, hs'.kept⟩
  | recv hm _ _ hk =>
    have hle := counted_rxMove hm hs
    exact ⟨by simp only; omega, hs.kept⟩
  | acked _ hk =>
    have hle := hs.acks
    exact ⟨by simp only; omega, Tx.Kept.count hs.kept⟩
  | lose _ hk =>
    have hle := hs.acks
    exact ⟨by simp only; omega, hs.kept⟩
  | repeatAck _ => exact (ha rfl).elim

theorem Counted.acked_le (h : Counted s) : s.tx.acked ≤ s.rx.accepted.length := by
  have := h.acks
  omega

/-- An issued item that the sender counts as acknowledged was accepted. -/
theorem accepted_of_acked (hi : InOrder s) (hc : Counted s) (hx : x ∈ s.tx.issued)
    (hle : x.1 ≤ s.tx.acked) : x ∈ s.rx.accepted :=
  hi.numbered.mem_prefix hi.accepted_prefix hx (hle.trans hc.acked_le)

/-- With nothing kept any more, everything issued was acknowledged and accepted. -/
theorem settled (hi : InOrder s) (hc : Counted s) (hl : s.tx.listed) (hh : s.tx.held = ∅) :
    s.tx.issued.length = s.tx.acked ∧ s.tx.issued.length = s.rx.accepted.length := by
  have hle := hi.accepted_prefix.length_le
  have hack := hc.acked_le
  rcases Nat.eq_zero_or_pos s.tx.issued.length with h0 | hpos
  · omega
  · have hlast : s.tx.issued.length - 1 < s.tx.issued.length := by omega
    have hnum := hi.numbered _ hlast
    rcases hc.kept hl _ (List.getElem_mem hlast) with hx | hx
    · omega
    · simp [hh] at hx

end CountAck
