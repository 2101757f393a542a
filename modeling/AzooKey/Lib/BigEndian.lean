import AzooKey.Lib.Bytes

/-!
# Numbers in bytes, the highest first

The fixed-width representation that keeps the order: of two numbers that fit
the smaller one has the smaller bytes (`encode_lt_encode`). What is written of
each byte may be ordered in the same way, byte by byte (`flatMap_lt_flatMap`).
-/

namespace BigEndian

/-- A number in `width` bytes. -/
def encode : ℕ → ℕ → Bytes
  | 0, _ => []
  | width + 1, n => UInt8.ofNat (n / 256 ^ width) :: encode width n

/-- A number has as many bytes as it is given. -/
@[simp] theorem length_encode (width n : ℕ) : (encode width n).length = width := by
  induction width with
  | zero => rfl
  | succ width ih => rw [encode, List.length_cons, ih]

/-- Higher digits do not show. -/
theorem encode_add_mul (width n k : ℕ) : encode width (n + 256 ^ width * k) = encode width n := by
  induction width generalizing k with
  | zero => rfl
  | succ width ih =>
    have hpos : 0 < 256 ^ width := Nat.pow_pos (by norm_num)
    have hfactor : 256 ^ (width + 1) * k = 256 ^ width * (256 * k) := by
      rw [pow_succ, mul_assoc]
    have hhead : UInt8.ofNat ((n + 256 ^ width * (256 * k)) / 256 ^ width)
        = UInt8.ofNat (n / 256 ^ width) := by
      refine UInt8.toNat.inj ?_
      rw [UInt8.toNat_ofNat', UInt8.toNat_ofNat', Nat.add_mul_div_left _ _ hpos,
        Nat.add_mul_mod_self_left]
    rw [encode, encode, hfactor, hhead, ih]

/-- The high bytes come first. -/
theorem encode_add (high low n : ℕ) :
    encode (high + low) n = encode high (n / 256 ^ low) ++ encode low n := by
  induction high with
  | zero => rw [Nat.zero_add, encode, List.nil_append]
  | succ high ih =>
    rw [Nat.succ_add, encode, encode, ih, Nat.div_div_eq_div_mul, ← pow_add, Nat.add_comm high low,
      List.cons_append]

/-- **The smaller number has the smaller bytes.** -/
theorem encode_lt_encode {width n m : ℕ} (h : n % 256 ^ width < m % 256 ^ width) :
    encode width n < encode width m := by
  induction width with
  | zero => rw [pow_zero, Nat.mod_one, Nat.mod_one] at h; exact absurd h (lt_irrefl 0)
  | succ width ih =>
    rw [pow_succ, Nat.mod_mul, Nat.mod_mul] at h
    have hn : n % 256 ^ width < 256 ^ width := Nat.mod_lt _ (Nat.pow_pos (by norm_num))
    have hm : m % 256 ^ width < 256 ^ width := Nat.mod_lt _ (Nat.pow_pos (by norm_num))
    rw [encode, encode, List.cons_lt_cons_iff]
    have htoNat : ∀ k : ℕ, (UInt8.ofNat k).toNat = k % 256 := fun k => UInt8.toNat_ofNat'
    rcases Nat.lt_trichotomy (n / 256 ^ width % 256) (m / 256 ^ width % 256) with hlt | heq | hgt
    · exact Or.inl (UInt8.lt_iff_toNat_lt.mpr (by rwa [htoNat, htoNat]))
    · refine Or.inr ⟨UInt8.toNat.inj (by rwa [htoNat, htoNat]), ih ?_⟩
      rw [heq] at h
      exact Nat.lt_of_add_lt_add_right h
    · have hge : 256 ^ width * (m / 256 ^ width % 256 + 1) ≤ 256 ^ width * (n / 256 ^ width % 256) :=
        Nat.mul_le_mul_left _ hgt
      rw [Nat.mul_add, Nat.mul_one] at hge
      exact absurd h (by omega)

/-- Of texts of one length the smaller one stays smaller, whatever follows. -/
theorem append_lt_append {xs ys : Bytes} (h : xs < ys) (hlen : xs.length = ys.length)
    (us vs : Bytes) : xs ++ us < ys ++ vs := by
  induction xs generalizing ys with
  | nil =>
    obtain rfl := List.eq_nil_of_length_eq_zero hlen.symm
    exact absurd h (lt_irrefl _)
  | cons x xs ih =>
    cases ys with
    | nil => cases hlen
    | cons y ys =>
      rw [List.cons_append, List.cons_append, List.cons_lt_cons_iff]
      rcases List.cons_lt_cons_iff.mp h with hlt | ⟨heq, htail⟩
      · exact Or.inl hlt
      · exact Or.inr ⟨heq, ih htail (Nat.succ.inj hlen)⟩

/-- **What is written of each byte keeps the order**, if less is written of a
smaller byte, and as much. -/
theorem flatMap_lt_flatMap {f : UInt8 × ℕ → Bytes}
    (hlength : ∀ a b k, (f (a, k)).length = (f (b, k)).length)
    (hlt : ∀ a b k, a < b → f (a, k) < f (b, k)) {xs ys : Bytes} (h : xs < ys)
    (hlen : xs.length = ys.length) (k : ℕ) :
    (xs.zipIdx k).flatMap f < (ys.zipIdx k).flatMap f := by
  induction xs generalizing ys k with
  | nil =>
    obtain rfl := List.eq_nil_of_length_eq_zero hlen.symm
    exact absurd h (lt_irrefl _)
  | cons x xs ih =>
    cases ys with
    | nil => cases hlen
    | cons y ys =>
      rw [List.zipIdx_cons, List.zipIdx_cons, List.flatMap_cons, List.flatMap_cons]
      rcases List.cons_lt_cons_iff.mp h with hxy | ⟨rfl, htail⟩
      · exact append_lt_append (hlt x y k hxy) (hlength x y k) _ _
      · exact List.append_left_lt (ih htail (Nat.succ.inj hlen) (k + 1))

end BigEndian
