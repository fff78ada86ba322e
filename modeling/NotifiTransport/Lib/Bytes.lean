import Mathlib.Algebra.Order.Floor.Div
import Mathlib.Data.List.Flatten
import Mathlib.Tactic.NormNum

/-! # Byte strings

Little-endian numbers of four bytes and the cutting of a list into pieces of at most
`n` elements, with the laws a reader of the pieces needs.
-/

/-- A string of octets. -/
abbrev Bytes := List UInt8

/-- The four little-endian bytes of `n` modulo `2 ^ 32`. -/
def toLE32 (n : ℕ) : Bytes :=
  [UInt8.ofNat n, UInt8.ofNat (n / 2 ^ 8), UInt8.ofNat (n / 2 ^ 16), UInt8.ofNat (n / 2 ^ 24)]

/-- The number that a little-endian byte string denotes. -/
def ofLE : Bytes → ℕ
  | [] => 0
  | b :: bs => b.toNat + 2 ^ 8 * ofLE bs

@[simp] theorem length_toLE32 (n : ℕ) : (toLE32 n).length = 4 := rfl

theorem take_toLE32_append (n : ℕ) (bs : Bytes) : (toLE32 n ++ bs).take 4 = toLE32 n := rfl

theorem drop_toLE32_append (n : ℕ) (bs : Bytes) : (toLE32 n ++ bs).drop 4 = bs := rfl

theorem ofLE_toLE32 (n : ℕ) : ofLE (toLE32 n) = n % 2 ^ 32 := by
  simp only [toLE32, ofLE, UInt8.toNat_ofNat']
  omega

theorem ofLE_toLE32_of_lt {n : ℕ} (h : n < 2 ^ 32) : ofLE (toLE32 n) = n := by
  rw [ofLE_toLE32, Nat.mod_eq_of_lt h]

section Pieces

variable {α : Type*}

/-- Cut at most `fuel` pieces of `n` elements off the front of a list. -/
def piecesAux (n : ℕ) : ℕ → List α → List (List α)
  | 0, _ => []
  | _, [] => []
  | fuel + 1, a :: l => (a :: l).take n :: piecesAux n fuel ((a :: l).drop n)

/-- Cut a list into consecutive pieces of `n` elements; the last one may be shorter. -/
def pieces (n : ℕ) (l : List α) : List (List α) := piecesAux n l.length l

variable {n : ℕ} {l : List α}

@[simp] theorem pieces_nil (n : ℕ) : pieces n ([] : List α) = [] := rfl

theorem piecesAux_flatten (hn : 0 < n) : ∀ (fuel : ℕ) (l : List α), l.length ≤ fuel →
    (piecesAux n fuel l).flatten = l
  | 0, l, h => by simp [List.eq_nil_of_length_eq_zero (Nat.le_zero.mp h), piecesAux]
  | _ + 1, [], _ => rfl
  | fuel + 1, a :: l, h => by
    have hd : ((a :: l).drop n).length ≤ fuel := by
      simp only [List.length_drop, List.length_cons] at h ⊢
      omega
    rw [piecesAux, List.flatten_cons, piecesAux_flatten hn fuel _ hd, List.take_append_drop]

theorem flatten_pieces (hn : 0 < n) (l : List α) : (pieces n l).flatten = l :=
  piecesAux_flatten hn _ _ le_rfl

theorem mem_piecesAux {p : List α} (hn : 0 < n) : ∀ (fuel : ℕ) (l : List α),
    p ∈ piecesAux n fuel l → p ≠ [] ∧ p.length ≤ n
  | 0, _, h => by simp [piecesAux] at h
  | _ + 1, [], h => by simp [piecesAux] at h
  | fuel + 1, a :: l, h => by
    rcases List.mem_cons.mp h with rfl | h
    · refine ⟨?_, by simp⟩
      obtain ⟨k, rfl⟩ := Nat.exists_eq_succ_of_ne_zero hn.ne'
      simp
    · exact mem_piecesAux hn fuel _ h

theorem ne_nil_of_mem_pieces {p : List α} (hn : 0 < n) (h : p ∈ pieces n l) : p ≠ [] :=
  (mem_piecesAux hn _ _ h).1

theorem length_le_of_mem_pieces {p : List α} (hn : 0 < n) (h : p ∈ pieces n l) :
    p.length ≤ n :=
  (mem_piecesAux hn _ _ h).2

/-- The first piece is as long as the list and the piece size allow. -/
theorem pieces_eq_cons (hl : l ≠ []) : ∃ ps, pieces n l = l.take n :: ps := by
  cases l with
  | nil => exact absurd rfl hl
  | cons a l => exact ⟨_, rfl⟩

theorem length_piecesAux (hn : 0 < n) (fuel : ℕ) (l : List α)
    (h : l.length ≤ fuel) : (piecesAux n fuel l).length = l.length ⌈/⌉ n := by
  induction fuel generalizing l with
  | zero =>
    obtain rfl := List.eq_nil_of_length_eq_zero (Nat.le_zero.mp h)
    simp [piecesAux]
  | succ fuel ih =>
    cases l with
    | nil => simp [piecesAux]
    | cons a l =>
      have hd : ((a :: l).drop n).length ≤ fuel := by
        simp only [List.length_drop, List.length_cons] at h ⊢
        omega
      rw [piecesAux, List.length_cons, ih _ hd, List.length_drop]
      simp only [Nat.ceilDiv_eq_add_pred_div, List.length_cons]
      rcases Nat.lt_or_ge (l.length + 1) n with hlt | hge
      · have hzero : (l.length + 1 - n + n - 1) / n = 0 := Nat.div_eq_of_lt (by omega)
        have hone : (l.length + 1 + n - 1) / n = 1 :=
          Nat.div_eq_of_lt_le (by omega) (by omega)
        rw [hzero, hone]
      · have hsum : l.length + 1 + n - 1 = l.length + 1 - n + n - 1 + n := by omega
        rw [hsum, Nat.add_div_right _ hn]

/-- The number of pieces is the length divided by the piece size, rounded up. -/
theorem length_pieces (hn : 0 < n) (l : List α) :
    (pieces n l).length = l.length ⌈/⌉ n :=
  length_piecesAux hn _ l le_rfl

end Pieces
