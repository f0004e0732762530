import Mathlib.Tactic.Common

/-!
# Texts that can be read back

A way of writing values is unambiguous where the text of a value and what follows it can be told
apart, whatever the value is, for all that may follow.

* `ReadBack` — the texts of values, before whatever keeps to a condition, can be read back.
* `ReadBack.prod`, `ReadBack.list` — one text after the other, and a list of them.
* `ReadBack.of_run` — a run of marked symbols is read back before anything that is not marked.
* `toDigits_injective` — numbers in a base up to sixteen.
-/

set_option autoImplicit false

namespace Unambiguous

variable {α β γ : Type}

/-- The texts of two values, each with something after it that keeps to `F`, are the same only
    where the values are and what is after them. -/
def ReadBack (write : α → List β) (F : List β → Prop) : Prop :=
  ∀ ⦃a b : α⦄ ⦃r s : List β⦄, F r → F s → write a ++ r = write b ++ s → a = b ∧ r = s

/-- Neither text starts the other. -/
def Apart (l l' : List β) : Prop := ∀ r s, l ++ r ≠ l' ++ s

theorem apart_of_not_prefix {l l' : List β} (h : ¬ l <+: l') (h' : ¬ l' <+: l) : Apart l l' := by
  intro r s heq
  rcases List.append_eq_append_iff.1 heq with ⟨t, ht, -⟩ | ⟨t, ht, -⟩
  · exact h ⟨t, ht.symm⟩
  · exact h' ⟨t, ht.symm⟩

namespace ReadBack

variable {write : α → List β} {write' : γ → List β} {F G : List β → Prop}

theorem injective (h : ReadBack write F) (hnil : F []) : Function.Injective write := by
  intro a b hab
  exact (h hnil hnil (congrArg (· ++ []) hab)).1

theorem mono (h : ReadBack write F) (hFG : ∀ r, G r → F r) : ReadBack write G :=
  fun _ _ _ _ hr hs heq => h (hFG _ hr) (hFG _ hs) heq

/-- Values that are told apart by what is written. -/
theorem comp (h : ReadBack write F) {f : γ → α} (hf : Function.Injective f) :
    ReadBack (fun c => write (f c)) F := by
  intro c d r s hr hs heq
  obtain ⟨hcd, rfl⟩ := h hr hs heq
  exact ⟨hf hcd, rfl⟩

/-- Before a text that starts them all. -/
theorem lead (h : ReadBack write F) (text : List β) : ReadBack (fun a => text ++ write a) F := by
  intro a b r s hr hs heq
  rw [List.append_assoc, List.append_assoc] at heq
  exact h hr hs (List.append_cancel_left heq)

/-- **One after the other**: the second, with what follows it, may follow the first. -/
theorem prod (h : ReadBack write F) (h' : ReadBack write' G)
    (hfollows : ∀ c r, G r → F (write' c ++ r)) :
    ReadBack (fun p : α × γ => write p.1 ++ write' p.2) G := by
  rintro ⟨a, c⟩ ⟨b, d⟩ r s hr hs heq
  rw [List.append_assoc, List.append_assoc] at heq
  obtain ⟨rfl, hrest⟩ := h (hfollows c r hr) (hfollows d s hs) heq
  obtain ⟨rfl, rfl⟩ := h' hr hs hrest
  exact ⟨rfl, rfl⟩

/-- Before a text that ends them all. -/
theorem trail (h : ReadBack write F) (text : List β) (hfollows : ∀ r, G r → F (text ++ r)) :
    ReadBack (fun a => write a ++ text) G := by
  intro a b r s hr hs heq
  rw [List.append_assoc, List.append_assoc] at heq
  obtain ⟨rfl, hrest⟩ := h (hfollows r hr) (hfollows s hs) heq
  exact ⟨rfl, List.append_cancel_left hrest⟩

/-- **A list**: nothing that may follow the list starts with the text of a value. -/
theorem list (h : ReadBack write F) (hstop : ∀ a r s, G s → write a ++ r ≠ s)
    (hfollows : ∀ (as : List α) r, G r → F (as.flatMap write ++ r)) :
    ReadBack (fun as : List α => as.flatMap write) G := by
  intro as
  induction as with
  | nil =>
    intro bs r s hr _ heq
    cases bs with
    | nil => exact ⟨rfl, heq⟩
    | cons b bs =>
      simp only [List.flatMap_nil, List.nil_append, List.flatMap_cons, List.append_assoc] at heq
      exact absurd heq.symm (hstop b _ r hr)
  | cons a as ih =>
    intro bs r s hr hs heq
    cases bs with
    | nil =>
      simp only [List.flatMap_nil, List.nil_append, List.flatMap_cons, List.append_assoc] at heq
      exact absurd heq (hstop a _ s hs)
    | cons b bs =>
      simp only [List.flatMap_cons, List.append_assoc] at heq
      obtain ⟨rfl, hrest⟩ := h (hfollows as r hr) (hfollows bs s hs) heq
      obtain ⟨rfl, rfl⟩ := ih hr hs hrest
      exact ⟨rfl, rfl⟩

/-- **A run is read back** before the end, or before what is not marked. -/
theorem of_run {marked : β → Bool} (hinj : Function.Injective write)
    (hrun : ∀ a, ∀ x ∈ write a, marked x = true) :
    ReadBack write fun r => ∀ x ∈ r.head?, marked x = false := by
  have htake : ∀ a r, (∀ x ∈ r.head?, marked x = false) →
      (write a ++ r).takeWhile marked = write a := by
    intro a r hr
    rw [List.takeWhile_append_of_pos (hrun a)]
    cases r with
    | nil => simp
    | cons x r => simp [hr x rfl]
  intro a b r s hr hs heq
  have hab : write a = write b := by rw [← htake a r hr, ← htake b s hs, heq]
  obtain rfl := hinj hab
  exact ⟨rfl, List.append_cancel_left heq⟩

end ReadBack

/-! ## Numbers -/

theorem digitChar_injOn : ∀ i < 16, ∀ j < 16, Nat.digitChar i = Nat.digitChar j → i = j := by
  decide

/-- The digits of a number in a base. -/
theorem mem_toDigits {b : Nat} (hb : 1 < b) (n : Nat) :
    ∀ c ∈ Nat.toDigits b n, ∃ i < b, c = Nat.digitChar i := by
  induction n using Nat.strongRecOn with
  | ind n ih =>
    intro c hc
    rw [Nat.toDigits_eq_if hb] at hc
    split_ifs at hc with hn
    · exact ⟨n, hn, List.mem_singleton.1 hc⟩
    · rcases List.mem_append.1 hc with hc | hc
      · exact ih (n / b) (Nat.div_lt_self (by omega) hb) c hc
      · exact ⟨n % b, Nat.mod_lt n (by omega), List.mem_singleton.1 hc⟩

/-- **A number is what its digits say**, in a base that has a character for each. -/
theorem toDigits_injective {b : Nat} (hb : 1 < b) (hb' : b ≤ 16) :
    Function.Injective (Nat.toDigits b) := by
  intro n
  induction n using Nat.strongRecOn with
  | ind n ih =>
    intro m h
    rw [Nat.toDigits_eq_if hb, Nat.toDigits_eq_if (n := m) hb] at h
    have hne : ∀ k, Nat.toDigits b k ≠ [] := fun _ => Nat.toDigits_ne_nil
    have hmod : ∀ k, k % b < 16 := fun k => Nat.lt_of_lt_of_le (Nat.mod_lt k (by omega)) hb'
    split_ifs at h with hn hm hm
    · exact digitChar_injOn n (by omega) m (by omega) (List.singleton_inj.1 h)
    · exact absurd (List.append_eq_singleton_iff.1 h.symm) (by simp [hne])
    · exact absurd (List.append_eq_singleton_iff.1 h) (by simp [hne])
    · obtain ⟨hquot, hrem⟩ := List.append_inj' h rfl
      have hdiv : n / b = m / b := ih (n / b) (Nat.div_lt_self (by omega) hb) hquot
      have hrem : n % b = m % b :=
        digitChar_injOn _ (hmod n) _ (hmod m) (List.singleton_inj.1 hrem)
      rw [← Nat.div_add_mod n b, ← Nat.div_add_mod m b, hdiv, hrem]

end Unambiguous
