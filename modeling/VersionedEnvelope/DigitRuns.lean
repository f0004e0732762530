import Mathlib.Tactic.Common

/-!
# Runs of digits in a text

The numbers in a text are its maximal runs of decimal digits, read in decimal from left to right.

* `digitRuns`, `numbers` — the runs, and the numbers they are.
* `digitRuns_digits` — a run ends where the digits end.
* `numbers_flatMap` — numbers written one after the other, with something else between them, are
  read back.
-/

set_option autoImplicit false

namespace DigitRuns

/-- The maximal runs of digits, from left to right. -/
def digitRuns (text : List Char) : List (List Char) :=
  (text.splitOnP fun c => !c.isDigit).filter fun run => !run.isEmpty

/-- The runs of digits as decimal numbers. -/
def numbers (text : List Char) : List Nat :=
  (digitRuns text).map fun run => Nat.ofDigitChars 10 run 0

/-- The text is over, or goes on with something else than a digit. -/
def EndsRun (text : List Char) : Prop := ∀ c ∈ text.head?, c.isDigit = false

theorem digitRuns_cons {c : Char} (h : c.isDigit = false) (text : List Char) :
    digitRuns (c :: text) = digitRuns text := by
  unfold digitRuns
  rw [List.splitOnP_cons_eq_if_modifyHead, if_pos (by simp [h])]
  rfl

/-- What has no digit is passed over. -/
theorem digitRuns_append {separator : List Char} (h : ∀ c ∈ separator, c.isDigit = false)
    (text : List Char) : digitRuns (separator ++ text) = digitRuns text := by
  induction separator with
  | nil => rfl
  | cons c separator ih =>
    obtain ⟨hc, hrest⟩ := List.forall_mem_cons.1 h
    rw [List.cons_append, digitRuns_cons hc, ih hrest]

/-- **A run ends where the digits end.** -/
theorem digitRuns_digits {run text : List Char} (hne : run ≠ [])
    (hrun : ∀ c ∈ run, c.isDigit = true) (htext : EndsRun text) :
    digitRuns (run ++ text) = run :: digitRuns text := by
  have hsplit : ∀ c ∈ run, (!c.isDigit) = false := fun c hc => by rw [hrun c hc]; rfl
  have hkept : (!run.isEmpty) = true := by simpa using hne
  cases text with
  | nil =>
    unfold digitRuns
    rw [List.append_nil, List.splitOnP_eq_singleton hsplit, List.filter_cons, if_pos hkept]
    rfl
  | cons c text =>
    have hc : c.isDigit = false := htext c rfl
    rw [digitRuns_cons hc]
    unfold digitRuns
    rw [List.splitOnP_append_cons_of_forall_mem hsplit c (by simp [hc]), List.filter_cons,
      if_pos hkept]

/-- A number in decimal is one run. -/
theorem digitRuns_toDigits (n : Nat) {text : List Char} (htext : EndsRun text) :
    digitRuns (Nat.toDigits 10 n ++ text) = Nat.toDigits 10 n :: digitRuns text :=
  digitRuns_digits Nat.toDigits_ne_nil
    (fun _ hc => Nat.isDigit_of_mem_toDigits (by decide) (by decide) hc) htext

/-- **Numbers written one after the other are read back**, where each but the first has something
    before it, and no digits. -/
theorem numbers_flatMap {items : List (List Char × Nat)}
    (hdigits : ∀ item ∈ items, ∀ c ∈ item.1, c.isDigit = false)
    (hbetween : ∀ item ∈ items.tail, item.1 ≠ []) :
    numbers (items.flatMap fun item => item.1 ++ Nat.toDigits 10 item.2) =
      items.map (·.2) := by
  induction items with
  | nil => rfl
  | cons item items ih =>
    obtain ⟨separator, n⟩ := item
    obtain ⟨hseparator, hdigits⟩ := List.forall_mem_cons.1 hdigits
    have hnext : EndsRun (items.flatMap fun item => item.1 ++ Nat.toDigits 10 item.2) := by
      intro c hc
      cases items with
      | nil => cases hc
      | cons item items =>
        obtain ⟨first, rest, hfirst⟩ :=
          List.exists_cons_of_ne_nil (hbetween item (List.mem_cons_self ..))
        rw [List.flatMap_cons, hfirst] at hc
        cases hc
        exact hdigits item (List.mem_cons_self ..) c (hfirst ▸ List.mem_cons_self ..)
    rw [List.flatMap_cons, List.append_assoc]
    unfold numbers at ih ⊢
    rw [digitRuns_append hseparator, digitRuns_toDigits n hnext, List.map_cons, List.map_cons,
      ih hdigits fun item hitem => hbetween item (List.mem_of_mem_tail hitem),
      Nat.ofDigitChars_ten_toDigits]

end DigitRuns
