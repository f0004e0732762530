import Mathlib.Tactic.IntervalCases
import VersionedEnvelope.Json.Reader

/-!
# JSON text: decimal integers

A natural number written in decimal is read back as the literal it was written as.

* `decimal_bareInteger` — the literal is a bare integer, of that value.
* `readValue_decimal` — it is read as a number, and the input goes on after it.
-/

set_option autoImplicit false

namespace Json

/-- A natural number in decimal. -/
def decimal (n : Nat) : Bytes := ascii (toString n)

theorem decimal_eq_map (n : Nat) :
    decimal n = (Nat.toDigits 10 n).map fun c => UInt8.ofNat c.toNat := by
  unfold decimal ascii
  rw [show toString n = n.repr from rfl, Nat.toList_repr]

/-- The last digit comes off the end. -/
theorem decimal_eq (n : Nat) :
    decimal n = (if n < 10 then [] else decimal (n / 10)) ++ [UInt8.ofNat (48 + n % 10)] := by
  have hdigit : ∀ d, d < 10 → UInt8.ofNat d.digitChar.toNat = UInt8.ofNat (48 + d) := by
    intro d hd
    interval_cases d <;> rfl
  rw [decimal_eq_map, Nat.toDigits_eq_if (by omega)]
  split
  · simp [hdigit n (by omega), Nat.mod_eq_of_lt (by omega : n < 10)]
  · simp [hdigit (n % 10) (Nat.mod_lt _ (by omega)), decimal_eq_map]

theorem isDigit_ofNat {d : Nat} (h : d < 10) : isDigit (UInt8.ofNat (48 + d)) = true := by
  interval_cases d <;> rfl

theorem decimal_all_isDigit (n : Nat) : (decimal n).all isDigit = true := by
  rw [decimal_eq, List.all_append]
  simp only [List.all_cons, List.all_nil, Bool.and_true, Bool.and_eq_true]
  refine ⟨?_, isDigit_ofNat (Nat.mod_lt _ (by omega))⟩
  split
  · rfl
  · exact decimal_all_isDigit (n / 10)
termination_by n

theorem decimal_ne_nil (n : Nat) : decimal n ≠ [] := by
  rw [decimal_eq]; simp

theorem digitsValue_decimal (n : Nat) : digitsValue (decimal n) = n := by
  have hlast : (UInt8.ofNat (48 + n % 10)).toNat - 48 = n % 10 := by
    rw [UInt8.toNat_ofNat']
    omega
  rw [decimal_eq, digitsValue, List.foldl_append]
  simp only [List.foldl_cons, List.foldl_nil, hlast]
  split
  · simp only [List.foldl_nil]; omega
  · have ih := digitsValue_decimal (n / 10)
    rw [digitsValue] at ih
    rw [ih]; omega
termination_by n

/-- **The literal is a bare integer.** -/
theorem decimal_bareInteger (n : Nat) : bareInteger (decimal n) = some n := by
  rw [bareInteger, if_pos ⟨decimal_ne_nil n, decimal_all_isDigit n⟩, digitsValue_decimal]

/-- There is no leading zero, but in `0` itself. -/
theorem decimal_head (n : Nat) (hn : n ≠ 0) : (decimal n).head? ≠ some Byte.zero := by
  rw [decimal_eq]
  split
  · intro h
    have hb := congrArg UInt8.toNat (Option.some.inj h)
    rw [UInt8.toNat_ofNat', show Byte.zero.toNat = 48 from rfl] at hb
    omega
  · have ih := decimal_head (n / 10) (by omega)
    cases hd : decimal (n / 10) with
    | nil => exact absurd hd (decimal_ne_nil _)
    | cons b ds => rw [hd] at ih; exact ih
termination_by n

/-- After its first digit a run of digits is scanned to its end. -/
theorem scanNumber_int {ds : Bytes} (h : ds.all isDigit = true) :
    scanNumber .int ds = some (ds, []) := by
  induction ds with
  | nil => rfl
  | cons b ds ih =>
    simp only [List.all_cons, Bool.and_eq_true] at h
    simp only [scanNumber, NumState.step, h.1, if_true, ih h.2, Option.map_some]

theorem scanNumber_decimal (n : Nat) : scanNumber .start (decimal n) = some (decimal n, []) := by
  by_cases hn : n = 0
  · subst hn; decide
  · have hall := decimal_all_isDigit n
    have hhead := decimal_head n hn
    cases hd : decimal n with
    | nil => exact absurd hd (decimal_ne_nil n)
    | cons b ds =>
      rw [hd] at hall hhead
      simp only [List.all_cons, Bool.and_eq_true] at hall
      have hzero : b ≠ Byte.zero := fun h => hhead (by rw [h]; rfl)
      have hminus : b ≠ Byte.minus := by rintro rfl; exact absurd hall.1 (by decide)
      simp only [scanNumber, NumState.step, hminus, hzero, hall.1, if_true, if_false,
        scanNumber_int hall.2, Option.map_some]

theorem isWhitespace_of_isDigit {b : UInt8} (h : isDigit b = true) : isWhitespace b = false := by
  cases hw : isWhitespace b with
  | false => rfl
  | true =>
    have := continuesNumber_of_isWhitespace hw
    simp [continuesNumber, h] at this

/-- A run of digits that does not go on is a number token. -/
theorem token_decimal (n : Nat) {r : Bytes} (hr : Follow r) :
    token (decimal n ++ r) = some (.number (decimal n), r) := by
  have hscan := (scanNumber_reads (scanNumber_decimal n)).2 r hr
  have hall := decimal_all_isDigit n
  cases hd : decimal n with
  | nil => exact absurd hd (decimal_ne_nil n)
  | cons b ds =>
    rw [hd] at hscan hall
    simp only [List.all_cons, Bool.and_eq_true] at hall
    have hne : ∀ k : UInt8, isDigit k = false → b ≠ k := by
      rintro k hk rfl; rw [hall.1] at hk; cases hk
    rw [List.cons_append] at hscan ⊢
    rw [token, skipWs_cons (isWhitespace_of_isDigit hall.1), tokenAt, if_neg (hne _ (by decide)),
      if_neg (hne _ (by decide)), if_neg (hne _ (by decide)), if_pos (.inr hall.1), hscan]
    rfl

/-- **It is read as a number**, up to what follows it. -/
theorem readValue_decimal {inRange : Bytes → Bool} (d : Nat) {n : Nat} (hn : n < UInt64.size)
    {r : Bytes} (hr : Follow r) :
    readValue inRange (d + 1) (decimal n ++ r) = some (.number (decimal n), r) := by
  refine readValue_scalar (token_decimal n hr) ?_
  have hvisit : (numberVisit inRange (decimal n)).isSome = true := by
    have hall := decimal_all_isDigit n
    have hvalue := digitsValue_decimal n
    cases hd : decimal n with
    | nil => exact absurd hd (decimal_ne_nil n)
    | cons b ds =>
      rw [hd] at hall hvalue
      simp only [numberVisit, if_pos hall, hvalue, if_pos hn, Option.isSome_some]
  simp only [Token.scalar, hvisit, if_true]

end Json
