import NetworkLabs.Dns.Exchange

/-! What `dns_so_tcp_send` puts on the wire when it has to be called more than once. -/
namespace NetworkLabs.Dns.Socket

variable {so so' : Socket} {k : Kernel} {r : Option SoError} {inbound : List UInt8}
  {wire wire' : List (Option UInt8)} {rs : List Reply} {rss : List (List Reply)} {m : List UInt8}
  {base : Nat}

/-- `n` bytes of the memory from `p` on. -/
def piece (m : List UInt8) (p n : Nat) : List (Option UInt8) :=
  (List.range n).map fun i => m[p + i]?

theorem piece_add (p n k : Nat) : piece m p (n + k) = piece m p n ++ piece m (p + n) k := by
  rw [piece, piece, piece, List.range_add, List.map_append, List.map_map]
  congr 2
  funext i
  exact congrArg (m[·]?) (Nat.add_assoc p n i).symm

/-- One call sends the bytes that are as far behind the due ones as it found `so->qout`. -/
theorem sendLoop_wire (hle : so.qout ≤ so.qend)
    (hloop : sendLoop base so inbound wire rs = (r, so', k)) :
    so.qout ≤ so'.qout ∧ so'.qout ≤ so.qend ∧
      k.wire = wire ++ piece so.memory (base + so.qout) (so'.qout - so.qout) ∧
      (r = none → so'.qout = so.qend) := by
  induction rs generalizing so wire with
  | nil =>
    cases hloop
    refine ⟨Nat.le_refl _, hle, by simp [piece], fun hr => ?_⟩
    by_contra hne
    rw [if_pos (by omega)] at hr
    cases hr
  | cons reply rs ih =>
    unfold sendLoop at hloop
    split at hloop
    · rename_i hlt
      split at hloop
      · cases hloop
        exact ⟨Nat.le_refl _, hle, by simp [piece], fun hr => by cases hr⟩
      · dsimp only at hloop
        have hsent : so.qout + min reply.count (so.qend - so.qout) ≤ so.qend := by omega
        obtain ⟨hqout, hend, hwire, hdone⟩ := ih hsent hloop
        have hqout' : so.qout + min reply.count (so.qend - so.qout) ≤ so'.qout := hqout
        refine ⟨by omega, hend, ?_, hdone⟩
        have hsplit : so'.qout - so.qout = min reply.count (so.qend - so.qout) +
            (so'.qout - (so.qout + min reply.count (so.qend - so.qout))) := by omega
        rw [hwire, hsplit, piece_add, Nat.add_assoc base, List.append_assoc]
        rfl
    · rename_i hge
      cases hloop
      exact ⟨Nat.le_refl _, hle, by simp [piece], fun _ => by omega⟩

/-- Calls of `dns_so_tcp_send`, one for each list of replies: with what `so->qout` they begin, what
they leave, and what is on the wire. -/
def sends (so : Socket) (wire : List (Option UInt8)) :
    List (List Reply) → List Nat × Socket × List (Option UInt8)
  | [] => ([], so, wire)
  | rs :: rss =>
    let (_, so', k) := so.tcpSend ⟨rs, [], wire⟩
    let (begins, left) := sends so' k.wire rss
    (so.qout :: begins, left)

/-- The bytes of calls that begin so, where `stop` is where the last one ends. -/
def shifted (m : List UInt8) (stop : Nat) : List Nat → List (Option UInt8)
  | [] => []
  | q :: qs => piece m (q + q) (qs.headD stop - q) ++ shifted m stop qs

theorem length_piece (m : List UInt8) (p n : Nat) : (piece m p n).length = n := by
  rw [piece, List.length_map, List.length_range]

/-- The calls go on where the last one has ended. -/
theorem sends_spec {begins : List Nat} (hle : so.qout ≤ so.qend)
    (h : sends so wire rss = (begins, so', wire')) :
    wire' = wire ++ shifted so.memory so'.qout begins ∧ begins.headD so'.qout = so.qout ∧
      (∀ q ∈ begins ++ [so'.qout], so.qout ≤ q) ∧ (begins ++ [so'.qout]).Pairwise (· ≤ ·) ∧
      so'.qout ≤ so.qend := by
  induction rss generalizing so wire begins with
  | nil =>
    cases h
    exact ⟨(List.append_nil _).symm, rfl, by simp, List.pairwise_singleton _ _, hle⟩
  | cons rs rss ih =>
    unfold sends at h
    cases hsend : so.tcpSend ⟨rs, [], wire⟩ with
    | mk r p =>
      obtain ⟨so₁, k₁⟩ := p
      obtain ⟨hqout, hend, hwire, -⟩ := sendLoop_wire hle hsend
      obtain ⟨hso, -⟩ := sendLoop_rest hsend
      rw [hsend] at h
      dsimp only at h
      cases hrest : sends so₁ k₁.wire rss with
      | mk begins' left =>
        obtain ⟨so₂, wire₂⟩ := left
        rw [hrest] at h
        cases h
        have hsame : so₁.memory = so.memory ∧ so₁.qend = so.qend := by
          rw [hso]
          exact ⟨rfl, rfl⟩
        rw [← hsame.2] at hend
        obtain ⟨hwire', hhead, hle', hsorted, hstop⟩ := ih hend hrest
        have hbegin (q : Nat) (hq : q ∈ begins' ++ [so'.qout]) : so.qout ≤ q :=
          hqout.trans (hle' q hq)
        refine ⟨?_, rfl, ?_, .cons hbegin hsorted, hsame.2 ▸ hstop⟩
        · rw [hwire', hwire, hsame.1, shifted, hhead, List.append_assoc]
        · intro q hq
          rcases List.mem_cons.mp hq with rfl | hq
          · exact Nat.le_refl _
          · exact hbegin q hq

/-- Calls that begin at the start or send nothing send the bytes that are due. -/
theorem shifted_intact {stop : Nat} {begins : List Nat}
    (hsorted : (begins ++ [stop]).Pairwise (· ≤ ·)) (h : ∀ q ∈ begins, q = 0 ∨ q = stop) :
    shifted m stop begins = piece m (begins.headD stop) (stop - begins.headD stop) := by
  induction begins with
  | nil => simp [shifted, piece]
  | cons q qs ih =>
    obtain ⟨hq, hqs⟩ := List.forall_mem_cons.mp h
    obtain ⟨hle, hsorted⟩ := List.pairwise_cons.mp hsorted
    have hhead : qs.headD stop = 0 ∨ qs.headD stop = stop := by
      cases qs with
      | nil => exact .inr rfl
      | cons q' qs => exact hqs q' List.mem_cons_self
    rw [shifted, ih hsorted hqs, List.headD_cons]
    rcases hq with rfl | rfl
    · rcases hhead with hhead | hhead
      · rw [hhead]
        rfl
      · rw [hhead, Nat.sub_self]
        exact List.append_nil _
    · have hlast := hle (qs.headD q) (by cases qs <;> simp)
      have hq : qs.headD q = q := by omega
      rw [hq, Nat.sub_self]
      rfl

/-- The first byte of a call that goes on is not the one that is due but as far behind it. -/
theorem shifted_first {stop q₀ : Nat} {begins : List Nat}
    (hsorted : (q₀ :: begins ++ [stop]).Pairwise (· ≤ ·)) {q : Nat} (hq : q ∈ q₀ :: begins)
    (hlt : q < stop) : (shifted m stop (q₀ :: begins))[q - q₀]? = some m[q + q]? := by
  induction begins generalizing q₀ with
  | nil =>
    obtain rfl := List.mem_singleton.mp hq
    rw [Nat.sub_self, shifted, List.headD_nil, shifted, List.append_nil, piece, List.getElem?_map,
      List.getElem?_range (by omega)]
    rfl
  | cons q₁ qs ih =>
    obtain ⟨hle, hrest⟩ := List.pairwise_cons.mp hsorted
    have hq₁ : q₀ ≤ q₁ := hle q₁ (by simp)
    rw [shifted, List.headD_cons]
    rcases List.mem_cons.mp hq with rfl | hq
    · rcases Nat.eq_or_lt_of_le hq₁ with rfl | hstep
      · rw [Nat.sub_self, piece, List.range_zero, List.map_nil, List.nil_append]
        have hfirst := ih hrest List.mem_cons_self
        rwa [Nat.sub_self] at hfirst
      · rw [Nat.sub_self, List.getElem?_append_left (by rw [length_piece]; omega), piece,
          List.getElem?_map, List.getElem?_range (by omega)]
        rfl
    · have hle₁ : q₁ ≤ q := by
        rcases List.mem_cons.mp hq with rfl | hmem
        · exact Nat.le_refl _
        · exact (List.pairwise_cons.mp hrest).1 q (List.mem_append_left _ hmem)
      rw [List.getElem?_append_right (by rw [length_piece]; omega), length_piece,
        show q - q₀ - (q₁ - q₀) = q - q₁ by omega]
      exact ih hrest hq

theorem length_shifted {stop : Nat} {begins : List Nat}
    (hsorted : (begins ++ [stop]).Pairwise (· ≤ ·)) :
    (shifted m stop begins).length = stop - begins.headD stop := by
  induction begins with
  | nil => simp [shifted]
  | cons q qs ih =>
    obtain ⟨hle, hsorted⟩ := List.pairwise_cons.mp hsorted
    have hnext : q ≤ qs.headD stop := hle _ (by cases qs <;> simp)
    have hstop : qs.headD stop ≤ stop := by
      cases qs with
      | nil => exact Nat.le_refl _
      | cons q' qs => exact (List.pairwise_cons.mp hsorted).1 stop (by simp)
    rw [shifted, List.length_append, length_piece, ih hsorted, List.headD_cons]
    omega

theorem piece_zero {n : Nat} (hn : n ≤ m.length) : piece m 0 n = (m.take n).map some := by
  apply List.ext_getElem
  · rw [length_piece, List.length_map, List.length_take, Nat.min_eq_left hn]
  · intro i hi hi'
    rw [length_piece] at hi
    simp [piece, List.getElem?_eq_getElem (show i < m.length by omega)]

/-- The query goes out as it is if the socket takes all of it in one call, however many times it
takes nothing before; but a call that goes on in the middle of it sends other bytes: the first one
is as far behind the due one as that is behind the start. -/
theorem sends_wire {begins : List Nat} (hqout : so.qout = 0)
    (h : sends so [] rss = (begins, so', wire)) :
    wire.length = so'.qout ∧ so'.qout ≤ so.qend ∧
      ((∀ q ∈ begins, q = 0 ∨ q = so'.qout) → so'.qout = so.qend →
        wire = (BigEndian.encode 2 so.query.data.length ++ so.query.data).map some) ∧
      ∀ q ∈ begins, q < so'.qout → wire[q]? = some so.memory[q + q]? := by
  obtain ⟨rfl, hhead, -, hsorted, hend⟩ := sends_spec (by omega) h
  rw [hqout] at hhead
  rw [List.nil_append]
  have hmemory : so.memory = BigEndian.encode 2 so.query.data.length ++ so.query.data ++
      so.query.spare := (List.append_assoc _ _ _).symm
  have hlength : (BigEndian.encode 2 so.query.data.length ++ so.query.data).length = so.qend := by
    rw [List.length_append, BigEndian.length_encode, qend, Nat.add_comm]
  refine ⟨by rw [length_shifted hsorted, hhead, Nat.sub_zero], hend, fun hbegins hwhole => ?_,
    fun q hq hlt => ?_⟩
  · have hle : so.qend ≤ so.memory.length := by
      rw [hmemory, List.length_append, hlength]
      exact Nat.le_add_right _ _
    rw [shifted_intact hsorted hbegins, hhead, Nat.sub_zero, hwhole, piece_zero hle, hmemory,
      List.take_left' hlength]
  · cases begins with
    | nil => cases hq
    | cons q₀ qs =>
      obtain rfl : q₀ = 0 := hhead
      exact shifted_first hsorted hq hlt

/-- What is on the wire once a query of 21 bytes was sent in two calls, the second from byte 5 on:
five bytes of it come from behind the buffer. -/
def garbled : List (Option UInt8) :=
  (askedSeven.memory.take 5 ++ askedSeven.memory.drop 10).map some ++ List.replicate 5 none

theorem sends_wire_resumed : garbled.length = 21 ∧ 21 ≤ askedSeven.qend ∧
    ((∀ q ∈ [0, 5], q = 0 ∨ q = 21) → 21 = askedSeven.qend → garbled =
      (BigEndian.encode 2 askedSeven.query.data.length ++ askedSeven.query.data).map some) ∧
    ∀ q ∈ [0, 5], q < 21 → garbled[q]? = some askedSeven.memory[q + q]? := by
  have hsends : sends askedSeven [] [[⟨none, 5, []⟩], [⟨none, 100, []⟩]] =
      ([0, 5], { askedSeven with qout := 21 }, garbled) := rfl
  exact sends_wire rfl hsends

end NetworkLabs.Dns.Socket
