import NotifiTransport.Lib.Bytes
import Mathlib.Data.Nat.Log

/-! # Variable-length numbers

Seven bits a byte, lowest first; every byte but the last has its high bit set. Both
directions are bounded by a number of bytes, so that a reader cannot be kept reading.
-/

/-- At most `k` bytes of the number `n`. -/
def varint : ℕ → ℕ → Bytes
  | 0, _ => []
  | k + 1, n =>
    if n < 128 then [UInt8.ofNat n] else UInt8.ofNat (n % 128 + 128) :: varint k (n / 128)

/-- Take a number of at most `k` bytes off the front. -/
def takeVarint : ℕ → Bytes → Option (ℕ × Bytes)
  | 0, _ => none
  | _, [] => none
  | k + 1, b :: rest =>
    if b.toNat < 128 then some (b.toNat, rest)
    else (takeVarint k rest).map fun r => (b.toNat - 128 + 128 * r.1, r.2)

theorem takeVarint_varint (k : ℕ) {n : ℕ} (h : n < 128 ^ k) (hk : 0 < k) (rest : Bytes) :
    takeVarint k (varint k n ++ rest) = some (n, rest) := by
  induction k generalizing n with
  | zero => exact absurd hk (Nat.lt_irrefl 0)
  | succ k ih =>
    rw [varint]
    split
    · next hn =>
      have hb : (UInt8.ofNat n).toNat = n := by simp; omega
      simp [takeVarint, hb, hn]
    · next hn =>
      have hb : (UInt8.ofNat (n % 128 + 128)).toNat = n % 128 + 128 := by simp; omega
      have hlt : n / 128 < 128 ^ k := Nat.div_lt_of_lt_mul (by rwa [pow_succ'] at h)
      have hpos : 0 < k := by
        rcases Nat.eq_zero_or_pos k with rfl | hk'
        · omega
        · exact hk'
      rw [List.cons_append, takeVarint, hb, ih hlt hpos]
      have hge : ¬ n % 128 + 128 < 128 := by omega
      simp only [if_neg hge, Option.map_some, Option.some.injEq, Prod.mk.injEq, and_true]
      omega

theorem length_varint_pos {k : ℕ} (hk : 0 < k) (n : ℕ) : 0 < (varint k n).length := by
  obtain ⟨k, rfl⟩ := Nat.exists_eq_succ_of_ne_zero hk.ne'
  rw [varint]
  split <;> simp

/-- A number takes one byte for each of its digits in base 128. -/
theorem length_varint (k : ℕ) {n : ℕ} (h : n < 128 ^ k) (hk : 0 < k) :
    (varint k n).length = Nat.log 128 n + 1 := by
  induction k generalizing n with
  | zero => exact absurd hk (Nat.lt_irrefl 0)
  | succ k ih =>
    rw [varint]
    split
    · next hn => rw [Nat.log_of_lt hn, List.length_singleton]
    · next hn =>
      have hlt : n / 128 < 128 ^ k := Nat.div_lt_of_lt_mul (by rwa [pow_succ'] at h)
      have hpos : 0 < k := by
        rcases Nat.eq_zero_or_pos k with rfl | hk'
        · omega
        · exact hk'
      rw [List.length_cons, ih hlt hpos, Nat.log_of_one_lt_of_le (by decide) (not_lt.mp hn)]
