import NetworkLabs.Feistel

/-! The permutation generator of the resolver and the query ids that it hands out. -/
namespace NetworkLabs.Dns

open Feistel Walk

/-- `dns_k_tea`. -/
structure Tea where
  key : Fin 4 → UInt32
  cycles : Nat

namespace Tea

def magic : UInt32 := 0x9E3779B9

def init (key : Fin 4 → UInt32) (cycles : Nat) : Tea :=
  ⟨key, if cycles = 0 then 32 else cycles⟩

/-- One pass of the loop, over `sum`, `y` and `z`. -/
def cycle (tea : Tea) : UInt32 × UInt32 × UInt32 → UInt32 × UInt32 × UInt32
  | (sum, y, z) =>
    let sum := sum + magic
    let y := y + (((z <<< 4) + tea.key 0) ^^^ (z + sum) ^^^ ((z >>> 5) + tea.key 1))
    let z := z + (((y <<< 4) + tea.key 2) ^^^ (y + sum) ^^^ ((y >>> 5) + tea.key 3))
    (sum, y, z)

def encrypt (tea : Tea) (v : UInt32 × UInt32) : UInt32 × UInt32 :=
  (tea.cycle^[tea.cycles] (0, v.1, v.2)).2

end Tea

/-- `dns_k_permutor`. -/
structure Permutor where
  stepi : UInt32
  length : UInt32
  limit : UInt32
  shift : UInt32
  mask : UInt32
  tea : Tea

namespace Permutor

/-- `DNS_K_PERMUTOR_ROUNDS`. -/
def rounds : Nat := 8

/-- The loop of `dns_k_permutor_powof` over `m` and `i`; `m` is zero after 32 passes, and then the
loop does not end. -/
def powofLoop (n : UInt32) : Nat → UInt32 → UInt32 → Option UInt32
  | 0, _, _ => none
  | fuel + 1, m, i => if m < n then powofLoop n fuel (m <<< 1) (i + 1) else some i

def powof (n : UInt32) : Option UInt32 := powofLoop n 33 1 0

/-- The key comes from `dns_random`. -/
def init (low high : UInt32) (key : Fin 4 → UInt32) : Option Permutor :=
  (powof (high - low + 1)).map fun width =>
    let width := width + width % 2
    { stepi := 0
      length := high - low + 1
      limit := high
      shift := width / 2
      mask := (1 <<< (width / 2)) - 1
      tea := .init key 0 }

variable (p : Permutor)

def F (k : Nat) (x : UInt32) : UInt32 := p.mask &&& (p.tea.encrypt (UInt32.ofNat k, x)).1

/-- The two halves of a number. -/
def split (n : UInt32) : UInt32 × UInt32 := (p.mask &&& (n >>> p.shift), p.mask &&& n)

def join (b : UInt32 × UInt32) : UInt32 := ((b.1 &&& p.mask) <<< p.shift) ||| (b.2 &&& p.mask)

/-- The loop ends one round before `rounds`. -/
def E (n : UInt32) : UInt32 :=
  p.join (Feistel.rounds (· ^^^ ·) p.F (rounds - 1) (p.split n))

def D (n : UInt32) : UInt32 :=
  p.join (Feistel.unrounds (· ^^^ ·) p.F (rounds - 1) (p.split n))

/-- The loop of `dns_k_permutor_step`, as long as `fuel` suffices. -/
def step (p : Permutor) : Nat → Option (UInt32 × Permutor)
  | 0 => none
  | fuel + 1 =>
    let n := p.E p.stepi
    let p := { p with stepi := p.stepi + 1 }
    if n ≥ p.length then p.step fuel else some (n + (p.limit + 1 - p.length), p)

/-- `so->qids` after `dns_so_init`. -/
def qids (key : Fin 4 → UInt32) : Option Permutor := init 1 65535 key

/-- One call of `step` after the other. -/
inductive Steps : Permutor → List UInt32 → Permutor → Prop
  | nil {p : Permutor} : Steps p [] p
  | cons {p q r : Permutor} {n : UInt32} {ns : List UInt32} (fuel : Nat)
      (h : p.step fuel = some (n, q)) (hns : Steps q ns r) : Steps p (n :: ns) r

/-- The range is not empty and not longer than the generator can tell. -/
def InRange (low high : UInt32) : Prop := low ≤ high ∧ high.toNat - low.toNat < 2 ^ 31

/-- The numbers of `2 * s` bits are permuted, and these are enough. -/
structure Sound (p : Permutor) (s : Nat) : Prop where
  shift : p.shift.toNat = s
  le : s ≤ 16
  mask : p.mask.toNat = 2 ^ s - 1
  length : p.length.toNat ≤ 2 ^ (2 * s)

variable {p} {s : Nat} {n : UInt32} {b : UInt32 × UInt32}

theorem toNat_one_shiftLeft {i : Nat} (hi : i ≤ 31) :
    ((1 : UInt32) <<< UInt32.ofNat i).toNat = 2 ^ i := by
  have hlt : 2 ^ i < 2 ^ 32 := Nat.pow_lt_pow_right (by decide) (by omega)
  simp only [UInt32.toNat_shiftLeft, UInt32.toNat_ofNat', UInt32.toNat_one, Nat.shiftLeft_eq]
  rw [Nat.mod_eq_of_lt (by omega : i < 2 ^ 32), Nat.mod_eq_of_lt (by omega : i < 32), Nat.one_mul,
    Nat.mod_eq_of_lt hlt]

theorem powofLoop_eq {k fuel i : Nat} (hk : n.toNat ≤ 2 ^ k) (hfuel : k < i + fuel) (hi : i ≤ k)
    (hsmall : k ≤ 31) : ∃ w : Nat, powofLoop n fuel (UInt32.ofNat (2 ^ i)) (UInt32.ofNat i) =
      some (UInt32.ofNat w) ∧ w ≤ k ∧ n.toNat ≤ 2 ^ w := by
  induction fuel generalizing i with
  | zero => omega
  | succ fuel ih =>
    have hlt : 2 ^ i < 2 ^ 32 := Nat.pow_lt_pow_right (by decide) (by omega)
    have hm : (UInt32.ofNat (2 ^ i)).toNat = 2 ^ i := by
      rw [UInt32.toNat_ofNat', Nat.mod_eq_of_lt hlt]
    unfold powofLoop
    by_cases hless : UInt32.ofNat (2 ^ i) < n
    · rw [if_pos hless]
      rw [UInt32.lt_iff_toNat_lt, hm] at hless
      have hik : i < k := by
        by_contra hnot
        obtain rfl : i = k := by omega
        omega
      have hnext : UInt32.ofNat (2 ^ i) <<< 1 = UInt32.ofNat (2 ^ (i + 1)) := by
        apply UInt32.toNat_inj.mp
        have hlt' : 2 ^ (i + 1) < 2 ^ 32 := Nat.pow_lt_pow_right (by decide) (by omega)
        rw [UInt32.toNat_shiftLeft, hm, UInt32.toNat_ofNat', Nat.mod_eq_of_lt hlt',
          UInt32.toNat_one, Nat.shiftLeft_eq, Nat.pow_succ]
        rw [Nat.pow_succ] at hlt'
        omega
      have hsucc : UInt32.ofNat i + 1 = UInt32.ofNat (i + 1) := (UInt32.ofNat_add i 1).symm
      rw [hnext, hsucc]
      exact ih (by omega) hik
    · rw [if_neg hless]
      rw [UInt32.lt_iff_toNat_lt, hm] at hless
      exact ⟨i, rfl, hi, by omega⟩

theorem powof_eq (hn : n.toNat ≤ 2 ^ 31) :
    ∃ w : Nat, powof n = some (UInt32.ofNat w) ∧ w ≤ 31 ∧ n.toNat ≤ 2 ^ w := by
  exact powofLoop_eq hn (by decide) (Nat.zero_le 31) (Nat.le_refl 31)

theorem length_init {low high : UInt32} (h : InRange low high) :
    (high - low + 1).toNat = high.toNat - low.toNat + 1 := by
  have hle := UInt32.le_iff_toNat_le.mp h.1
  have hlt := h.2
  rw [UInt32.toNat_add, UInt32.toNat_sub_of_le _ _ h.1, UInt32.toNat_one]
  omega

theorem init_sound {low high : UInt32} (h : InRange low high) (key : Fin 4 → UInt32) :
    ∃ p s, init low high key = some p ∧ p.Sound s ∧ p.limit = high ∧
      p.length.toNat = high.toNat - low.toNat + 1 := by
  have hlength := length_init h
  have hsmall := h.2
  obtain ⟨w, hw, hle, hpow⟩ := powof_eq (n := high - low + 1) (by omega)
  have hwidth : (UInt32.ofNat w + UInt32.ofNat w % 2).toNat = w + w % 2 := by
    have hmod : w % 2 ^ 32 = w := Nat.mod_eq_of_lt (by omega)
    have htwo : (2 : UInt32).toNat = 2 := rfl
    rw [UInt32.toNat_add, UInt32.toNat_mod, UInt32.toNat_ofNat', hmod, htwo]
    omega
  have hshift : ((UInt32.ofNat w + UInt32.ofNat w % 2) / 2).toNat = (w + w % 2) / 2 := by
    rw [UInt32.toNat_div, hwidth]
    rfl
  have hofNat : (UInt32.ofNat w + UInt32.ofNat w % 2) / 2 = UInt32.ofNat ((w + w % 2) / 2) := by
    rw [← hshift, UInt32.ofNat_toNat]
  refine ⟨_, (w + w % 2) / 2, by rw [init, hw]; rfl, ?_, rfl, hlength⟩
  refine ⟨hshift, by omega, ?_, ?_⟩
  · simp only [hofNat]
    rw [UInt32.toNat_sub_of_le, toNat_one_shiftLeft (by omega)]
    · rfl
    · rw [UInt32.le_iff_toNat_le, toNat_one_shiftLeft (by omega)]
      exact Nat.one_le_two_pow
  · have hdouble : 2 * ((w + w % 2) / 2) = w + w % 2 := by omega
    simp only [hdouble]
    exact hpow.trans (Nat.pow_le_pow_right (by decide) (Nat.le_add_right w _))

theorem Sound.and_mask (h : p.Sound s) (n : UInt32) : (p.mask &&& n).toNat = n.toNat % 2 ^ s := by
  rw [UInt32.toNat_and, h.mask, Nat.and_comm, Nat.and_two_pow_sub_one_eq_mod]

theorem Sound.split_fst (h : p.Sound s) (n : UInt32) :
    (p.split n).1.toNat = n.toNat / 2 ^ s % 2 ^ s := by
  have hle := h.le
  have hmod : s % 32 = s := Nat.mod_eq_of_lt (by omega)
  rw [split, h.and_mask, UInt32.toNat_shiftRight, h.shift, hmod, Nat.shiftRight_eq_div_pow]

theorem Sound.split_snd (h : p.Sound s) (n : UInt32) : (p.split n).2.toNat = n.toNat % 2 ^ s :=
  h.and_mask n

/-- Halves of `s` bits. -/
def Halves (s : Nat) (b : UInt32 × UInt32) : Prop := b.1.toNat < 2 ^ s ∧ b.2.toNat < 2 ^ s

theorem Sound.join_toNat (h : p.Sound s) (hb : Halves s b) :
    (p.join b).toNat = b.1.toNat * 2 ^ s + b.2.toNat := by
  have hle := h.le
  have hmask : ∀ x : UInt32, x.toNat < 2 ^ s → (x &&& p.mask).toNat = x.toNat := by
    intro x hx
    rw [UInt32.and_comm, h.and_mask, Nat.mod_eq_of_lt hx]
  have hprod : b.1.toNat * 2 ^ s < 2 ^ 32 := by
    calc b.1.toNat * 2 ^ s < 2 ^ s * 2 ^ s := Nat.mul_lt_mul_of_pos_right hb.1 (Nat.two_pow_pos s)
      _ = 2 ^ (s + s) := (Nat.pow_add 2 s s).symm
      _ ≤ 2 ^ 32 := Nat.pow_le_pow_right (by decide) (by omega)
  rw [join, UInt32.toNat_or, UInt32.toNat_shiftLeft, h.shift, hmask _ hb.1, hmask _ hb.2,
    Nat.mod_eq_of_lt (by omega : s < 32), Nat.shiftLeft_eq, Nat.mod_eq_of_lt hprod,
    ← Nat.shiftLeft_eq, ← Nat.shiftLeft_add_eq_or_of_lt hb.2]

theorem Sound.halves_split (h : p.Sound s) (n : UInt32) : Halves s (p.split n) := by
  rw [Halves, h.split_fst, h.split_snd]
  exact ⟨Nat.mod_lt _ (Nat.two_pow_pos s), Nat.mod_lt _ (Nat.two_pow_pos s)⟩

theorem Sound.split_join (h : p.Sound s) (hb : Halves s b) : p.split (p.join b) = b := by
  have hpos := Nat.two_pow_pos s
  apply Prod.ext
  · apply UInt32.toNat_inj.mp
    rw [h.split_fst, h.join_toNat hb, Nat.add_comm, Nat.add_mul_div_right _ _ hpos,
      Nat.div_eq_of_lt hb.2, Nat.zero_add, Nat.mod_eq_of_lt hb.1]
  · apply UInt32.toNat_inj.mp
    rw [h.split_snd, h.join_toNat hb, Nat.mul_add_mod', Nat.mod_eq_of_lt hb.2]

theorem Sound.join_split (h : p.Sound s) (n : UInt32) :
    (p.join (p.split n)).toNat = n.toNat % 2 ^ (2 * s) := by
  rw [h.join_toNat (h.halves_split n), h.split_fst, h.split_snd, Nat.two_mul, Nat.pow_add,
    Nat.mod_mul, Nat.add_comm, Nat.mul_comm]

theorem xor_xor (x y : UInt32) : x ^^^ y ^^^ y = x := by
  rw [UInt32.xor_assoc, UInt32.xor_self, UInt32.xor_zero]

/-- The rounds stay within halves of `s` bits. -/
theorem Sound.xor_F (h : p.Sound s) (i : Nat) (x y : UInt32) (hx : x.toNat < 2 ^ s)
    (_hy : y.toNat < 2 ^ s) : (x ^^^ p.F i y).toNat < 2 ^ s := by
  rw [UInt32.toNat_xor]
  apply Nat.xor_lt_two_pow hx
  rw [F, h.and_mask]
  exact Nat.mod_lt _ (Nat.two_pow_pos s)

theorem Sound.halves_rounds (h : p.Sound s) (k : Nat) (hb : Halves s b) :
    Halves s (Feistel.rounds (· ^^^ ·) p.F k b) :=
  Feistel.rounds_closed (P := fun x : UInt32 => x.toNat < 2 ^ s) h.xor_F k hb

/-- `D` undoes `E` on the numbers of `2 * s` bits, of which `E` takes the lowest bits only. -/
theorem Sound.D_E (h : p.Sound s) (n : UInt32) : (p.D (p.E n)).toNat = n.toNat % 2 ^ (2 * s) := by
  have hrounds := h.halves_rounds (rounds - 1) (h.halves_split n)
  rw [D, E, h.split_join hrounds, Feistel.unrounds_rounds xor_xor, h.join_split]

theorem Sound.E_lt (h : p.Sound s) (n : UInt32) : (p.E n).toNat < 2 ^ (2 * s) := by
  have hrounds := h.halves_rounds (rounds - 1) (h.halves_split n)
  rw [E, h.join_toNat hrounds, Nat.two_mul, Nat.pow_add]
  have hfst := hrounds.1
  have hsnd := hrounds.2
  calc _ < _ := Nat.add_lt_add_left hsnd _
    _ = ((Feistel.rounds (· ^^^ ·) p.F (rounds - 1) (p.split n)).1.toNat + 1) * 2 ^ s :=
      (Nat.succ_mul _ _).symm
    _ ≤ 2 ^ s * 2 ^ s := Nat.mul_le_mul_right _ hfst


/-- What the counter comes to next. -/
def next (p : Permutor) : Permutor := { p with stepi := p.stepi + 1 }

def wanted (p : Permutor) : Bool := p.E p.stepi < p.length

def image (p : Permutor) : UInt32 := p.E p.stepi + (p.limit + 1 - p.length)

theorem step_eq (p : Permutor) (fuel : Nat) :
    p.step fuel = (draw next wanted fuel p).map fun r => (r.1.image, r.2) := by
  induction fuel generalizing p with
  | zero => rfl
  | succ fuel ih =>
    rw [step, draw]
    by_cases hlt : p.E p.stepi < p.length
    · have hnot : ¬ p.E p.stepi ≥ p.length := UInt32.not_le.mpr hlt
      simp only [hnot, if_false, wanted, hlt, decide_true, if_true]
      rfl
    · have hge : p.E p.stepi ≥ p.length := UInt32.not_lt.mp hlt
      simp only [hge, if_true, wanted, hlt, decide_false, Bool.false_eq_true, if_false]
      exact ih p.next

theorem steps_iff {p q : Permutor} {ns : List UInt32} :
    Steps p ns q ↔ ∃ ps, Draws next wanted p ps q ∧ ns = ps.map image := by
  constructor
  · intro h
    induction h with
    | nil => exact ⟨[], .nil, rfl⟩
    | cons fuel h _ ih =>
      obtain ⟨ps, hps, rfl⟩ := ih
      rw [step_eq] at h
      obtain ⟨⟨x, t⟩, hdraw, heq⟩ := Option.map_eq_some_iff.mp h
      cases heq
      exact ⟨x :: ps, .cons fuel hdraw hps, rfl⟩
  · rintro ⟨ps, hps, rfl⟩
    induction hps with
    | nil => exact .nil
    | cons fuel h _ ih =>
      refine .cons fuel ?_ ih
      rw [step_eq, h]
      rfl

theorem next_iterate (p : Permutor) (i : Nat) :
    next^[i] p = { p with stepi := p.stepi + UInt32.ofNat i } := by
  induction i with
  | zero => simp
  | succ i ih =>
    rw [Function.iterate_succ_apply', ih, next, UInt32.ofNat_add, UInt32.add_assoc]
    rfl

theorem Sound.E_inj (h : p.Sound s) {m : UInt32} (hm : m.toNat < 2 ^ (2 * s))
    (hn : n.toNat < 2 ^ (2 * s)) (heq : p.E m = p.E n) : m = n := by
  have hback := congrArg (fun x => (p.D x).toNat) heq
  simp only [h.D_E, Nat.mod_eq_of_lt hm, Nat.mod_eq_of_lt hn] at hback
  exact UInt32.toNat_inj.mp hback

theorem Sound.E_mod (h : p.Sound s) {m : UInt32} (hmod : m.toNat = n.toNat % 2 ^ (2 * s)) :
    p.E m = p.E n := by
  have hsplit : p.split m = p.split n := by
    apply Prod.ext
    · apply UInt32.toNat_inj.mp
      rw [h.split_fst, h.split_fst, hmod, Nat.two_mul, Nat.pow_add, Nat.mod_mul_right_div_self,
        Nat.mod_mod]
    · apply UInt32.toNat_inj.mp
      rw [h.split_snd, h.split_snd, hmod, Nat.two_mul, Nat.pow_add, Nat.mod_mul_right_mod]
  rw [E, E, hsplit]

/-- Over as many values of the counter as there are numbers of `2 * s` bits, `E` takes each of
these once. -/
theorem Sound.window (h : p.Sound s) :
    ((List.iterate next p (2 ^ (2 * s))).map fun q => (q.E q.stepi).toNat).Perm
      (List.range (2 ^ (2 * s))) := by
  have hle := h.le
  have hpow : 2 ^ (2 * s) ≤ 2 ^ 32 := Nat.pow_le_pow_right (by decide) (by omega)
  have htoNat : ∀ i, i < 2 ^ (2 * s) → (UInt32.ofNat i).toNat = i := by
    intro i hi
    rw [UInt32.toNat_ofNat', Nat.mod_eq_of_lt (by omega)]
  have hmod : ∀ i, (UInt32.ofNat i).toNat % 2 ^ (2 * s) = i % 2 ^ (2 * s) := by
    intro i
    rw [UInt32.toNat_ofNat']
    exact Nat.mod_mod_of_dvd i (Nat.pow_dvd_pow 2 (by omega))
  have hwindow := Walk.perm_of_period (f := fun i => (p.E (UInt32.ofNat i)).toNat)
    (n := 2 ^ (2 * s)) (fun i => h.E_lt _) ?_ ?_ p.stepi.toNat
  · refine List.Perm.trans (List.Perm.of_eq ?_) hwindow
    rw [← List.range_map_iterate, List.range'_eq_map_range, List.map_map, List.map_map]
    apply List.map_congr_left
    intro i _
    simp only [Function.comp_apply, next_iterate, UInt32.ofNat_add, UInt32.ofNat_toNat]
    rfl
  · intro i
    have hpos : i % 2 ^ (2 * s) < 2 ^ (2 * s) := Nat.mod_lt _ (Nat.two_pow_pos _)
    rw [h.E_mod (m := UInt32.ofNat (i % 2 ^ (2 * s))) (n := UInt32.ofNat i)]
    rw [htoNat _ hpos, hmod]
  · intro i j hi hj heq
    have hsame := h.E_inj (by rwa [htoNat i hi]) (by rwa [htoNat j hj]) (UInt32.toNat_inj.mp heq)
    rw [← htoNat i hi, ← htoNat j hj, hsame]

theorem image_toNat {low high : UInt32} (hrange : InRange low high) (hlimit : p.limit = high)
    (hlength : p.length.toNat = high.toNat - low.toNat + 1) (hlt : p.E p.stepi < p.length) :
    p.image.toNat = (p.E p.stepi).toNat + low.toNat := by
  have hle := UInt32.le_iff_toNat_le.mp hrange.1
  have hsmall := hrange.2
  have hhigh := high.toNat_lt
  have hlow : p.limit + 1 - p.length = low := by
    apply UInt32.toNat_inj.mp
    rw [UInt32.toNat_sub, UInt32.toNat_add, hlength, hlimit, UInt32.toNat_one]
    omega
  rw [UInt32.lt_iff_toNat_lt, hlength] at hlt
  rw [image, hlow, UInt32.toNat_add]
  omega

/-- Only the counter moves. -/
theorem eq_of_step {fuel : Nat} {q : Permutor} (h : p.step fuel = some (n, q)) :
    ∃ i, q = { p with stepi := i } := by
  induction fuel generalizing p with
  | zero => cases h
  | succ fuel ih =>
    rw [step] at h
    simp only at h
    split at h
    · exact ih (p := p.next) h
    · cases h
      exact ⟨_, rfl⟩

theorem eq_of_steps {ns : List UInt32} {q : Permutor} (h : Steps p ns q) :
    ∃ i, q = { p with stepi := i } := by
  induction h with
  | nil => exact ⟨_, rfl⟩
  | cons fuel h _ ih =>
    obtain ⟨i, rfl⟩ := eq_of_step h
    exact ih

theorem Sound.counter (h : p.Sound s) (i : UInt32) : Sound { p with stepi := i } s :=
  ⟨h.shift, h.le, h.mask, h.length⟩

/-- The next numbers, as many as there are in the range, are those of the range. -/
theorem Sound.cover (h : p.Sound s) {low high : UInt32} (hrange : InRange low high)
    (hlimit : p.limit = high) (hlength : p.length.toNat = high.toNat - low.toNat + 1) :
    ∃ ns q, Steps p ns q ∧ (ns.map UInt32.toNat).Perm
      (List.range' low.toNat (high.toNat - low.toNat + 1)) := by
  obtain ⟨q, hq⟩ := draws_iterate next wanted p (2 ^ (2 * s))
  refine ⟨_, q, steps_iff.mpr ⟨_, hq, rfl⟩, ?_⟩
  let value : Permutor → Nat := fun x => (x.E x.stepi).toNat
  have hmem : ∀ x ∈ List.iterate next p (2 ^ (2 * s)),
      x.length = p.length ∧ x.limit = p.limit := by
    intro x hx
    obtain ⟨i, -, rfl⟩ := List.mem_iterate.mp hx
    rw [next_iterate]
    exact ⟨rfl, rfl⟩
  have himages : (((List.iterate next p (2 ^ (2 * s))).filter wanted).map image).map UInt32.toNat =
      (((List.iterate next p (2 ^ (2 * s))).filter wanted).map value).map (low.toNat + ·) := by
    rw [List.map_map, List.map_map]
    apply List.map_congr_left
    intro x hx
    obtain ⟨hx, hwanted⟩ := List.mem_filter.mp hx
    obtain ⟨hlength', hlimit'⟩ := hmem x hx
    have hlt : x.E x.stepi < x.length := by simpa [wanted] using hwanted
    simp only [Function.comp_apply, value]
    rw [image_toNat hrange (hlimit'.trans hlimit) (by rw [hlength', hlength]) hlt, Nat.add_comm]
  have hfilter : ((List.iterate next p (2 ^ (2 * s))).filter wanted).map value =
      ((List.iterate next p (2 ^ (2 * s))).map value).filter fun v => v < p.length.toNat := by
    rw [List.filter_map]
    congr 1
    apply List.filter_congr
    intro x hx
    simp only [wanted, Function.comp_apply, UInt32.lt_iff_toNat_lt, (hmem x hx).1, value]
  rw [himages, hfilter, List.range'_eq_map_range]
  apply List.Perm.map
  refine (h.window.filter _).trans (List.Perm.of_eq ?_)
  rw [← hlength]
  have hle := h.length
  obtain ⟨k, hk⟩ := Nat.exists_eq_add_of_le hle
  rw [hk, List.range_add, List.filter_append]
  have hbelow : (List.range p.length.toNat).filter (fun v => decide (v < p.length.toNat)) =
      List.range p.length.toNat := by
    apply List.filter_eq_self.mpr
    intro v hv
    exact decide_eq_true (List.mem_range.mp hv)
  have habove : ((List.range k).map (p.length.toNat + ·)).filter
      (fun v => decide (v < p.length.toNat)) = [] := by
    apply List.filter_eq_nil_iff.mpr
    intro v hv
    obtain ⟨i, -, rfl⟩ := List.mem_map.mp hv
    simp
  rw [hbelow, habove, List.append_nil]

theorem steps_eq_of_length {q r : Permutor} {ms ns : List UInt32} (h : Steps p ms q)
    (h' : Steps p ns r) (hlength : ms.length = ns.length) : ms = ns := by
  obtain ⟨ps, hps, rfl⟩ := steps_iff.mp h
  obtain ⟨qs, hqs, rfl⟩ := steps_iff.mp h'
  rw [List.length_map, List.length_map] at hlength
  rw [hps.eq_of_length hqs hlength]

/-- At any time in any run the next numbers, as many as there are from `low` to `high`, are these
numbers, each of them once. -/
theorem steps_permutation {low high : UInt32} {key : Fin 4 → UInt32} {q : Permutor}
    {ms : List UInt32} (hrange : InRange low high) (hp : init low high key = some p)
    (hrun : Steps p ms q) :
    (∃ ns r, Steps q ns r ∧ ns.length = high.toNat - low.toNat + 1) ∧
      ∀ ns r, Steps q ns r → ns.length = high.toNat - low.toNat + 1 →
        ns.Nodup ∧ ∀ n, n ∈ ns ↔ low ≤ n ∧ n ≤ high := by
  obtain ⟨p', s, hp', hsound, hlimit, hlength⟩ := init_sound hrange key
  obtain rfl : p = p' := Option.some.inj (hp.symm.trans hp')
  obtain ⟨i, rfl⟩ := eq_of_steps hrun
  obtain ⟨ns, r, hns, hperm⟩ := (hsound.counter i).cover hrange hlimit hlength
  have hcount : ns.length = high.toNat - low.toNat + 1 := by simpa using hperm.length_eq
  refine ⟨⟨ns, r, hns, hcount⟩, fun ns' r' hns' hlength' => ?_⟩
  obtain rfl := steps_eq_of_length hns hns' (hcount.trans hlength'.symm)
  refine ⟨List.Nodup.of_map _ (hperm.nodup_iff.mpr List.nodup_range'), fun n => ?_⟩
  have hle := UInt32.le_iff_toNat_le.mp hrange.1
  have hmem : n ∈ ns ↔ n.toNat ∈ ns.map UInt32.toNat :=
    (List.mem_map_of_injective fun _ _ => UInt32.toNat_inj.mp).symm
  rw [hmem, hperm.mem_iff, List.mem_range'_1, UInt32.le_iff_toNat_le, UInt32.le_iff_toNat_le]
  omega

/-- The ids of a new socket: 65535 queries go by before one comes again. -/
theorem steps_permutation_qids : ∃ p, qids (fun _ => 0) = some p ∧
    (∃ ns r, Steps p ns r ∧ ns.length = 65535) ∧
      ∀ ns r, Steps p ns r → ns.length = 65535 →
        ns.Nodup ∧ ∀ n, n ∈ ns ↔ 1 ≤ n ∧ n ≤ 65535 := by
  have hrange : InRange 1 65535 := ⟨by decide, by decide⟩
  obtain ⟨p, s, hp, -⟩ := init_sound hrange fun _ => 0
  exact ⟨p, hp, steps_permutation hrange hp .nil⟩

end Permutor

end NetworkLabs.Dns
