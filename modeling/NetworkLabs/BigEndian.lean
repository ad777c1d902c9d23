import Mathlib.Algebra.Order.Group.Nat
import Mathlib.Data.List.Induction
import Mathlib.Data.Nat.ModEq
import Mathlib.Tactic.Common

/-! Numbers as a fixed number of bytes, the most significant one first. -/
namespace BigEndian

/-- The last `k` bytes of `v`. -/
def encode : Nat → Nat → List UInt8
  | 0, _ => []
  | k + 1, v => encode k (v / 256) ++ [UInt8.ofNat v]

def decode (bs : List UInt8) : Nat := bs.foldl (fun v b => v * 256 + b.toNat) 0

@[simp] theorem length_encode (k v : Nat) : (encode k v).length = k := by
  induction k generalizing v with
  | zero => rfl
  | succ k ih => simp [encode, ih]

theorem decode_snoc (bs : List UInt8) (b : UInt8) :
    decode (bs ++ [b]) = decode bs * 256 + b.toNat := by
  simp [decode]

theorem decode_encode (k v : Nat) : decode (encode k v) = v % 256 ^ k := by
  induction k generalizing v with
  | zero => simp [encode, decode, Nat.mod_one]
  | succ k ih =>
    have hbyte : (UInt8.ofNat v).toNat = v % 256 := by simp
    rw [encode, decode_snoc, ih, hbyte, Nat.pow_succ', Nat.mod_mul]
    omega

theorem decode_encode_of_lt {k v : Nat} (h : v < 256 ^ k) : decode (encode k v) = v := by
  rw [decode_encode, Nat.mod_eq_of_lt h]

theorem encode_decode (bs : List UInt8) : encode bs.length (decode bs) = bs := by
  induction bs using List.reverseRecOn with
  | nil => rfl
  | append_singleton bs b ih =>
    have hb := b.toNat_lt
    have hlow : (decode bs * 256 + b.toNat) / 256 = decode bs := by omega
    have hbyte : UInt8.ofNat (decode bs * 256 + b.toNat) = b := by
      apply UInt8.toNat_inj.mp
      simp
    rw [List.length_append, List.length_singleton, encode, decode_snoc, hlow, ih, hbyte]

theorem decode_lt (bs : List UInt8) : decode bs < 256 ^ bs.length := by
  induction bs using List.reverseRecOn with
  | nil => simp [decode]
  | append_singleton bs b ih =>
    have hb := b.toNat_lt
    rw [decode_snoc, List.length_append, List.length_singleton, Nat.pow_succ]
    omega

end BigEndian
