import Mathlib.Logic.Relation
import Mathlib.Tactic.Common

/-!
# Conversion ladders

A value is converted rung by rung until a rung ends the climb: at the top, with the result, or
at a broken rung, with what broke.  Nothing here says what the values are.

* `Climbs` — the meaning of a climb, as a relation between a value and its outcome.
* `climbs_iff_of_reaches` — climbing may start from any value on the way.
* `exists_climbs`, `Climbs.unique` — every climb ends when each rung goes down in some measure,
  and it ends in one way.
* `climbs_ok_iff`, `climbs_error_iff` — a climb is a chain of rungs to the value that ends it.
* `Reaches.map` — a longer ladder has the chains of the shorter one.
* `Climbs.map` — a ladder with the same rungs among other values has the same climbs.
* `Climbs.skips` — a ladder that skips rungs of another climbs to the same result.
-/

set_option autoImplicit false

/-- What is done with one value. -/
inductive Rung (α τ φ : Type) where
  | next (a : α)
  | top (t : τ)
  | broken (f : φ)

/-- The same rung among other values, with other results. -/
def Rung.map {α β τ υ φ : Type} (π : α → β) (g : τ → υ) : Rung α τ φ → Rung β υ φ
  | .next a => .next (π a)
  | .top t => .top (g t)
  | .broken f => .broken f

namespace Ladder

variable {α β τ υ φ : Type}

/-- The outcome of a climb: the result at the top, or where and how a rung broke. -/
inductive Climbs (rung : α → Rung α τ φ) : α → Except (α × φ) τ → Prop where
  | top {a t} (h : rung a = .top t) : Climbs rung a (.ok t)
  | broken {a f} (h : rung a = .broken f) : Climbs rung a (.error (a, f))
  | next {a b r} (h : rung a = .next b) (hb : Climbs rung b r) : Climbs rung a r

/-- One value is met on the climb from another. -/
def Reaches (rung : α → Rung α τ φ) : α → α → Prop :=
  Relation.ReflTransGen fun a b => rung a = .next b

variable {rung : α → Rung α τ φ}

theorem climbs_iff_of_next {a b : α} (h : rung a = .next b) {r : Except (α × φ) τ} :
    Climbs rung a r ↔ Climbs rung b r := by
  constructor
  · intro ha
    cases ha with
    | top h' => rw [h] at h'; cases h'
    | broken h' => rw [h] at h'; cases h'
    | next h' hb => rw [h] at h'; cases h'; exact hb
  · exact Climbs.next h

/-- **A climb may start from any value on the way.** -/
theorem climbs_iff_of_reaches {a b : α} (h : Reaches rung a b) {r : Except (α × φ) τ} :
    Climbs rung a r ↔ Climbs rung b r := by
  induction h with
  | refl => rfl
  | tail _ hstep ih => rw [ih, climbs_iff_of_next hstep]

/-- A climb has one outcome. -/
theorem Climbs.unique {a : α} {r r' : Except (α × φ) τ} (h : Climbs rung a r)
    (h' : Climbs rung a r') : r = r' := by
  induction h with
  | top ht =>
    cases h' with
    | top ht' => rw [ht] at ht'; cases ht'; rfl
    | broken hf => rw [ht] at hf; cases hf
    | next hn _ => rw [ht] at hn; cases hn
  | broken hf =>
    cases h' with
    | top ht => rw [hf] at ht; cases ht
    | broken hf' => rw [hf] at hf'; cases hf'; rfl
    | next hn _ => rw [hf] at hn; cases hn
  | next hn _ ih => exact ih ((climbs_iff_of_next hn).1 h')

/-- **A climb ends** when, from the values it can meet, each rung goes down in a measure. -/
theorem exists_climbs {I : α → Prop} {μ : α → Nat}
    (hnext : ∀ a b, I a → rung a = .next b → I b ∧ μ b < μ a) {a : α} (ha : I a) :
    ∃ r, Climbs rung a r := by
  induction hn : μ a using Nat.strongRecOn generalizing a with
  | _ n ih =>
    cases hr : rung a with
    | top t => exact ⟨_, .top hr⟩
    | broken f => exact ⟨_, .broken hr⟩
    | next b =>
      obtain ⟨hb, hlt⟩ := hnext a b ha hr
      obtain ⟨r, hclimb⟩ := ih (μ b) (hn ▸ hlt) hb rfl
      exact ⟨r, .next hr hclimb⟩

/-- **A climb to the top** is a chain of rungs to a value that ends it there. -/
theorem climbs_ok_iff {a : α} {t : τ} :
    Climbs rung a (.ok t) ↔ ∃ b, Reaches rung a b ∧ rung b = .top t := by
  constructor
  · intro h
    generalize hr : (Except.ok t : Except (α × φ) τ) = r at h
    induction h with
    | top ht => cases hr; exact ⟨_, .refl, ht⟩
    | broken _ => cases hr
    | next hn _ ih =>
      obtain ⟨b, hb, ht⟩ := ih hr
      exact ⟨b, .head hn hb, ht⟩
  · rintro ⟨b, hb, ht⟩
    exact (climbs_iff_of_reaches hb).2 (.top ht)

/-- **A climb that breaks** is a chain of rungs to the value that it breaks on. -/
theorem climbs_error_iff {a b : α} {f : φ} :
    Climbs rung a (.error (b, f)) ↔ Reaches rung a b ∧ rung b = .broken f := by
  constructor
  · intro h
    generalize hr : (Except.error (b, f) : Except (α × φ) τ) = r at h
    induction h with
    | top _ => cases hr
    | broken hf => cases hr; exact ⟨.refl, hf⟩
    | next hn _ ih =>
      obtain ⟨hb, hf⟩ := ih hr
      exact ⟨.head hn hb, hf⟩
  · rintro ⟨hb, hf⟩
    exact (climbs_iff_of_reaches hb).2 (.broken hf)

/-- A chain of rungs on one ladder is one on any ladder that has the same rungs. -/
theorem Reaches.map {rung' : β → Rung β υ φ} {π : α → β}
    (hnext : ∀ a b, rung a = .next b → rung' (π a) = .next (π b)) {a b : α}
    (h : Reaches rung a b) : Reaches rung' (π a) (π b) :=
  Relation.ReflTransGen.lift π (fun a b hab => hnext a b hab) a b h

/-- The same outcome among other values, with other results. -/
def mapOutcome (π : α → β) (g : τ → υ) : Except (α × φ) τ → Except (β × φ) υ
  | .ok t => .ok (g t)
  | .error (a, f) => .error (π a, f)

/-- **A climb goes the same way on a ladder that has the same rungs.** -/
theorem Climbs.map {rung' : β → Rung β υ φ} {π : α → β} {g : τ → υ}
    (hrung : ∀ a, rung' (π a) = (rung a).map π g) {a : α} {r : Except (α × φ) τ}
    (h : Climbs rung a r) : Climbs rung' (π a) (mapOutcome π g r) := by
  induction h with
  | @top a t ht => exact .top (by rw [hrung, ht]; rfl)
  | @broken a f hf => exact .broken (by rw [hrung, hf]; rfl)
  | @next a b r hn _ ih => exact .next (by rw [hrung, hn]; rfl) ih

/-! ## Ladders that skip rungs -/

/-- Every rung of one ladder is one or more of the other's, and breaks where one of them does. -/
structure Skips (rung' rung : α → Rung α τ φ) (Alike : φ → φ → Prop) : Prop where
  next : ∀ {a b}, rung' a = .next b → Reaches rung a b
  top : ∀ {a t}, rung' a = .top t → Climbs rung a (.ok t)
  broken : ∀ {a f'}, rung' a = .broken f' → ∃ b f, Climbs rung a (.error (b, f)) ∧ Alike f' f

/-- A ladder skips rungs when each of its rungs is one that the other ladder has further up. -/
theorem skips_of_reaches {rung' : α → Rung α τ φ} {Alike : φ → φ → Prop} (hrefl : ∀ f, Alike f f)
    (h : ∀ a, ∃ b, Reaches rung a b ∧ rung' a = rung b) : Skips rung' rung Alike where
  next {a _} hn := by
    obtain ⟨b, hb, heq⟩ := h a
    exact hb.tail (heq ▸ hn)
  top {a _} ht := by
    obtain ⟨b, hb, heq⟩ := h a
    exact climbs_ok_iff.2 ⟨b, hb, heq ▸ ht⟩
  broken {a f} hf := by
    obtain ⟨b, hb, heq⟩ := h a
    exact ⟨b, f, climbs_error_iff.2 ⟨hb, heq ▸ hf⟩, hrefl f⟩

/-- The same result at the top, or breaks that are alike, of which one is met on the climb from
    the other. -/
inductive Agree (rung : α → Rung α τ φ) (Alike : φ → φ → Prop) :
    Except (α × φ) τ → Except (α × φ) τ → Prop where
  | top (t : τ) : Agree rung Alike (.ok t) (.ok t)
  | broken {a b f' f} (hreaches : Reaches rung a b) (halike : Alike f' f) :
      Agree rung Alike (.error (a, f')) (.error (b, f))

/-- **A ladder that skips rungs of another climbs to the same result.** -/
theorem Climbs.skips {rung' : α → Rung α τ φ} {Alike : φ → φ → Prop}
    (hskips : Skips rung' rung Alike) {a : α} {r' : Except (α × φ) τ} (h : Climbs rung' a r') :
    ∃ r, Climbs rung a r ∧ Agree rung Alike r' r := by
  induction h with
  | top ht => exact ⟨_, hskips.top ht, .top _⟩
  | broken hf =>
    obtain ⟨b, f, hclimb, halike⟩ := hskips.broken hf
    exact ⟨_, hclimb, .broken (climbs_error_iff.1 hclimb).1 halike⟩
  | next hn _ ih =>
    obtain ⟨r, hr, hagree⟩ := ih
    exact ⟨r, (climbs_iff_of_reaches (hskips.next hn)).2 hr, hagree⟩

end Ladder
