/-! Decimal digits. -/

namespace PacketC.Text

/-- A decimal number starts with a zero only if it is zero. -/
theorem head_toDigits (n : Nat) : ∃ d ds, Nat.toDigits 10 n = Nat.digitChar d :: ds ∧ d < 10 ∧
    (d = 0 → n = 0 ∧ ds = []) := by
  induction n using Nat.strongRecOn with
  | ind n ih =>
    rw [Nat.toDigits_eq_if (by decide)]
    split
    next hlt => exact ⟨n, [], rfl, hlt, fun h => ⟨h, rfl⟩⟩
    next hge =>
      obtain ⟨d, ds, hds, hd, hzero⟩ := ih (n / 10) (Nat.div_lt_self (by omega) (by decide))
      refine ⟨d, ds ++ [Nat.digitChar (n % 10)], by rw [hds]; rfl, hd, fun h => ?_⟩
      have := (hzero h).1
      omega

end PacketC.Text
