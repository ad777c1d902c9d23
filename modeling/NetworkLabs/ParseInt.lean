import Mathlib.Algebra.Group.Nat.Defs
import Mathlib.Data.List.Basic
import Mathlib.Tactic.Common

/-! Decimal numbers of 32 bits as Java reads them. -/

/-- Which characters beside the ASCII ones are decimal digits depends on the version of Unicode. -/
structure DecimalDigits where
  digit : Char → Option Nat
  digit_of_isDigit : ∀ c : Char, c.isDigit = true → digit c = some (c.toNat - '0'.toNat)

namespace DecimalDigits

variable {dd : DecimalDigits} {n : Nat} {ds : List Char}

/-- The largest `int`. -/
def intMax : Nat := 2 ^ 31 - 1

/-- The number that the digits stand for, if there are some and nothing else. -/
def magnitude (dd : DecimalDigits) : List Char → Option Nat
  | [] => none
  | ds => ds.foldlM (fun v c => (dd.digit c).map fun d => 10 * v + d) 0

/-- `Integer.parseInt`, `none` when it throws. -/
def parseInt (dd : DecimalDigits) : List Char → Option Int
  | [] => none
  | c :: s =>
    if c = '-' then
      (dd.magnitude s).bind fun v => if v ≤ intMax + 1 then some (-v) else none
    else
      (dd.magnitude (if c = '+' then s else c :: s)).bind fun v =>
        if v ≤ intMax then some v else none

theorem foldlM_digit (dd : DecimalDigits) (h : ∀ c ∈ ds, c.isDigit = true) (v : Nat) :
    ds.foldlM (fun v c => (dd.digit c).map fun d => 10 * v + d) v =
      some (Nat.ofDigitChars 10 ds v) := by
  induction ds generalizing v with
  | nil => simp
  | cons c ds ih =>
    have hc := dd.digit_of_isDigit c (h c List.mem_cons_self)
    have hds := ih fun c' hc' => h c' (List.mem_cons_of_mem c hc')
    rw [List.foldlM_cons, hc, Nat.ofDigitChars_cons]
    exact hds _

theorem isDigit_toDigits : ∀ c ∈ Nat.toDigits 10 n, c.isDigit = true :=
  fun _ hc => Nat.isDigit_of_mem_toDigits (by decide) (by decide) hc

theorem magnitude_toDigits (dd : DecimalDigits) (n : Nat) :
    dd.magnitude (Nat.toDigits 10 n) = some n := by
  have hdigits := foldlM_digit dd (isDigit_toDigits (n := n)) 0
  rw [Nat.ofDigitChars_ten_toDigits] at hdigits
  cases hds : Nat.toDigits 10 n with
  | nil => exact absurd hds Nat.toDigits_ne_nil
  | cons c ds =>
    rw [hds] at hdigits
    exact hdigits

/-- What `toString` writes is read back if it fits. -/
theorem parseInt_toDigits (n : Nat) :
    dd.parseInt (Nat.toDigits 10 n) = if n ≤ intMax then some (n : Int) else none := by
  have hmagnitude := magnitude_toDigits dd n
  have hdigit := isDigit_toDigits (n := n)
  cases hds : Nat.toDigits 10 n with
  | nil => exact absurd hds Nat.toDigits_ne_nil
  | cons c ds =>
    rw [hds] at hmagnitude hdigit
    have hc := hdigit c List.mem_cons_self
    have hminus : c ≠ '-' := fun heq => absurd (heq ▸ hc) (by decide)
    have hplus : c ≠ '+' := fun heq => absurd (heq ▸ hc) (by decide)
    rw [parseInt, if_neg hminus, if_neg hplus, hmagnitude, Option.bind_some]

theorem parseInt_le {s : List Char} {i : Int} (h : dd.parseInt s = some i) : i ≤ intMax := by
  unfold parseInt at h
  split at h
  · cases h
  split at h
  · obtain ⟨v, -, h⟩ := Option.bind_eq_some_iff.mp h
    obtain ⟨-, heq⟩ := Option.ite_none_right_eq_some.mp h
    cases heq
    omega
  · obtain ⟨v, -, h⟩ := Option.bind_eq_some_iff.mp h
    obtain ⟨hle, heq⟩ := Option.ite_none_right_eq_some.mp h
    cases heq
    exact Int.ofNat_le.mpr hle

def ascii : DecimalDigits where
  digit c := if c.isDigit then some (c.toNat - '0'.toNat) else none
  digit_of_isDigit _ h := if_pos h

end DecimalDigits
