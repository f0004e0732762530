import Mathlib.Data.List.Basic
import Mathlib.Tactic.Common

/-!
# Layers around a value, some of them transparent

A value holds another, that one a third, and so on to a value that holds none: these are its
layers.  A transparent layer stands for what it holds.  `source` is the next layer for somebody who
cannot see the transparent ones.

* `walk`, `walk_nodup` — the values reached by a step that goes down; none is met twice.
* `layers`, `chain` — all layers of a value, and what is reached from it by `source`.
* `chain_map_shown` — the chain shows each layer that is not transparent, once and in order.
* `exists_chain_append` — the chain of a value ends with the chain of its core.
-/

set_option autoImplicit false

universe u v

/-- A step that goes down, and so comes to an end. -/
def Descends {α : Type u} (next : α → Option α) : Prop :=
  ∃ size : α → Nat, ∀ a b, next a = some b → size b < size a

/-- Values in layers: what a value holds, and the next layer that can be seen. -/
structure Layering (α : Type u) where
  held : α → Option α
  source : α → Option α
  transparent : α → Bool
  held_descends : Descends held
  /-- What can be seen is followed by what it holds. -/
  source_of_visible : ∀ {a}, transparent a = false → source a = held a
  /-- A transparent layer stands for what it holds. -/
  source_of_transparent : ∀ {a}, transparent a = true → ∃ b, held a = some b ∧ source a = source b

namespace Layering

variable {α : Type u} {β : Type v}

/-! ## Walks -/

section walk

variable {next : α → Option α} (hnext : Descends next) {a b : α}

/-- A value, and what is reached from it step by step. -/
def walk (hnext : Descends next) (a : α) : List α :=
  a :: match _h : next a with
    | none => []
    | some b => walk hnext b
termination_by hnext.choose a
decreasing_by exact hnext.choose_spec _ _ _h

theorem walk_of_none (h : next a = none) : walk hnext a = [a] := by
  rw [walk]
  split
  · rfl
  · rename_i b hb
    rw [h] at hb
    cases hb

theorem walk_of_some (h : next a = some b) : walk hnext a = a :: walk hnext b := by
  rw [walk]
  split
  · rename_i hb
    rw [h] at hb
    cases hb
  · rename_i b' hb
    rw [h] at hb
    cases hb
    rfl

theorem walk_eq_cons (a : α) : ∃ rest, walk hnext a = a :: rest := by
  rw [walk]
  exact ⟨_, rfl⟩

include hnext in
/-- Induction along a walk, from its end. -/
theorem walk_induction {P : α → Prop} (h : ∀ a, (∀ b, next a = some b → P b) → P a) (a : α) :
    P a := by
  obtain ⟨size, hsize⟩ := hnext
  induction hn : size a using Nat.strongRecOn generalizing a with
  | ind n ih =>
    subst hn
    exact h a fun b hb => ih _ (hsize a b hb) b rfl

variable {size : α → Nat} (hsize : ∀ a b, next a = some b → size b < size a)
include hsize

theorem size_le_of_mem_walk (a : α) : ∀ b ∈ walk hnext a, size b ≤ size a := by
  induction a using walk_induction hnext with
  | h a ih =>
    intro b hb
    cases h : next a with
    | none =>
      rw [walk_of_none hnext h, List.mem_singleton] at hb
      exact Nat.le_of_eq (congrArg size hb)
    | some a' =>
      rw [walk_of_some hnext h, List.mem_cons] at hb
      have hlt := hsize a a' h
      rcases hb with rfl | hb
      · exact Nat.le_refl _
      · have hle := ih a' h b hb
        omega

/-- A walk goes down. -/
theorem walk_pairwise (a : α) : (walk hnext a).Pairwise fun b c => size c < size b := by
  induction a using walk_induction hnext with
  | h a ih =>
    cases h : next a with
    | none =>
      rw [walk_of_none hnext h]
      exact List.pairwise_singleton _ _
    | some a' =>
      rw [walk_of_some hnext h]
      refine List.pairwise_cons.2 ⟨fun b hb => ?_, ih a' h⟩
      exact Nat.lt_of_le_of_lt (size_le_of_mem_walk hnext hsize a' b hb) (hsize a a' h)

end walk

/-- Nothing is met twice on a walk. -/
theorem walk_nodup {next : α → Option α} (hnext : Descends next) (a : α) :
    (walk hnext a).Nodup := by
  obtain ⟨size, hsize⟩ := id hnext
  refine (walk_pairwise hnext hsize a).imp fun h heq => ?_
  rw [heq] at h
  exact absurd h (Nat.lt_irrefl _)

variable (L : Layering α)

/-- All layers, from the outside in. -/
def layers (a : α) : List α := walk L.held_descends a

theorem source_descends : Descends L.source := by
  obtain ⟨size, hsize⟩ := L.held_descends
  refine ⟨size, fun a => ?_⟩
  induction a using walk_induction L.held_descends with
  | h a ih =>
    intro b h
    cases ht : L.transparent a with
    | false => exact hsize a b (L.source_of_visible ht ▸ h)
    | true =>
      obtain ⟨a', ha', hsource⟩ := L.source_of_transparent ht
      exact Nat.lt_trans (ih a' ha' b (hsource ▸ h)) (hsize a a' ha')

/-- What is reached by `source`. -/
def chain (a : α) : List α := walk L.source_descends a

/-- The layer that is seen where a value stands: the first that is not transparent. -/
def shown (a : α) : α := ((L.layers a).find? fun b => !L.transparent b).getD a

variable {L} {a b : α}

/-! ## One layer -/

/-- What can be seen and what it holds are next to each other in the chain. -/
theorem chain_of_visible (ht : L.transparent a = false) (h : L.held a = some b) :
    L.chain a = a :: L.chain b :=
  walk_of_some _ ((L.source_of_visible ht).trans h)

/-- After its first element, the chain of a transparent layer is the chain of what it holds. -/
theorem chain_of_transparent (ht : L.transparent a = true) (h : L.held a = some b) :
    ∃ rest, L.chain a = a :: rest ∧ L.chain b = b :: rest := by
  obtain ⟨b', hb', hsource⟩ := L.source_of_transparent ht
  rw [h] at hb'
  cases hb'
  cases hs : L.source b with
  | none => exact ⟨[], walk_of_none _ (hsource.trans hs), walk_of_none _ hs⟩
  | some c => exact ⟨L.chain c, walk_of_some _ (hsource.trans hs), walk_of_some _ hs⟩

/-- A value that holds nothing can be seen, and it is all there is. -/
theorem of_held_none (h : L.held a = none) :
    L.transparent a = false ∧ L.layers a = [a] ∧ L.chain a = [a] := by
  have ht : L.transparent a = false := by
    cases ht : L.transparent a with
    | false => rfl
    | true =>
      obtain ⟨b, hb, -⟩ := L.source_of_transparent ht
      rw [h] at hb
      cases hb
  exact ⟨ht, walk_of_none _ h, walk_of_none _ ((L.source_of_visible ht).trans h)⟩

theorem shown_of_visible (ht : L.transparent a = false) : L.shown a = a := by
  obtain ⟨rest, hrest⟩ := walk_eq_cons L.held_descends a
  rw [shown, layers, hrest, List.find?_cons_of_pos (by simp [ht])]
  rfl

/-- Some layer can be seen. -/
theorem exists_shown (a : α) : ∃ b, (L.layers a).find? (fun b => !L.transparent b) = some b := by
  induction a using walk_induction L.held_descends with
  | h a ih =>
    cases ht : L.transparent a with
    | false =>
      obtain ⟨rest, hrest⟩ := walk_eq_cons L.held_descends a
      exact ⟨a, by rw [layers, hrest, List.find?_cons_of_pos (by simp [ht])]⟩
    | true =>
      obtain ⟨a', ha', -⟩ := L.source_of_transparent ht
      obtain ⟨b, hb⟩ := ih a' ha'
      refine ⟨b, ?_⟩
      rw [layers, walk_of_some _ ha', List.find?_cons_of_neg (by simp [ht])]
      exact hb

theorem shown_of_transparent (ht : L.transparent a = true) (h : L.held a = some b) :
    L.shown a = L.shown b := by
  obtain ⟨c, hc⟩ := L.exists_shown b
  have ha : (L.layers a).find? (fun b => !L.transparent b) = some c := by
    rw [layers, walk_of_some _ h, List.find?_cons_of_neg (by simp [ht])]
    exact hc
  rw [shown, shown, ha, hc]
  rfl

/-! ## The chain and the layers -/

/-- **The chain shows each layer that is not transparent**, once and in order. -/
theorem chain_map_shown (a : α) :
    (L.chain a).map L.shown = (L.layers a).filter fun b => !L.transparent b := by
  induction a using walk_induction L.held_descends with
  | h a ih =>
    cases h : L.held a with
    | none =>
      obtain ⟨ht, hlayers, hchain⟩ := of_held_none h
      rw [hlayers, hchain, List.map_singleton, shown_of_visible ht]
      simp [ht]
    | some b =>
      have hlayers : L.layers a = a :: L.layers b := walk_of_some _ h
      rw [hlayers, List.filter_cons, ← ih b h]
      cases ht : L.transparent a with
      | false =>
        rw [chain_of_visible ht h, List.map_cons, shown_of_visible ht]
        rfl
      | true =>
        obtain ⟨rest, ha, hb⟩ := chain_of_transparent ht h
        rw [ha, hb, List.map_cons, List.map_cons, shown_of_transparent ht h]
        rfl

/-- What is said of a transparent layer is what is said of the layer that is seen. -/
theorem map_shown {f : α → β}
    (hf : ∀ {a b}, L.transparent a = true → L.held a = some b → f a = f b) (a : α) :
    f (L.shown a) = f a := by
  induction a using walk_induction L.held_descends with
  | h a ih =>
    cases ht : L.transparent a with
    | false => rw [shown_of_visible ht]
    | true =>
      obtain ⟨b, hb, -⟩ := L.source_of_transparent ht
      rw [shown_of_transparent ht hb, ih b hb, hf ht hb]

/-- **The chain of a value ends with the chain of its core**, where nothing transparent holds the
    core. -/
theorem exists_chain_append {core : α → Option β}
    (hcore : ∀ {a b}, L.held a = some b → (core b).isSome → L.transparent a = false) {u : β}
    (hu : (L.layers a).findSome? core = some u) :
    ∃ before b, core b = some u ∧ L.chain a = before ++ L.chain b ∧
      ∀ c ∈ before, core c = none := by
  induction a using walk_induction L.held_descends with
  | h a ih =>
    cases ha : core a with
    | some u' =>
      obtain ⟨rest, hrest⟩ := walk_eq_cons L.held_descends a
      rw [layers, hrest, List.findSome?_cons, ha] at hu
      exact ⟨[], a, ha.trans hu, rfl, fun c hc => absurd hc List.not_mem_nil⟩
    | none =>
      cases h : L.held a with
      | none =>
        rw [(of_held_none h).2.1, List.findSome?_cons, ha] at hu
        cases hu
      | some a' =>
        rw [layers, walk_of_some _ h, List.findSome?_cons, ha] at hu
        obtain ⟨before, b, hb, hchain, hbefore⟩ := ih a' h hu
        cases ht : L.transparent a with
        | false =>
          refine ⟨a :: before, b, hb, ?_, List.forall_mem_cons.2 ⟨ha, hbefore⟩⟩
          rw [chain_of_visible ht h, hchain, List.cons_append]
        | true =>
          obtain ⟨rest, hchain_a, hchain_a'⟩ := chain_of_transparent ht h
          obtain ⟨rest', hchain_b⟩ := walk_eq_cons L.source_descends b
          rw [hchain_a'] at hchain
          cases before with
          | nil =>
            -- a layer that a transparent one holds is not the core
            rw [List.nil_append, chain, hchain_b] at hchain
            have hhead : a' = b := (List.cons.inj hchain).1
            have hopaque := hcore h (by rw [hhead, hb]; rfl)
            rw [ht] at hopaque
            cases hopaque
          | cons c before =>
            rw [List.cons_append] at hchain
            obtain ⟨-, hrest⟩ := List.cons.inj hchain
            obtain ⟨-, hbefore⟩ := List.forall_mem_cons.1 hbefore
            refine ⟨a :: before, b, hb, ?_, List.forall_mem_cons.2 ⟨ha, hbefore⟩⟩
            rw [hchain_a, hrest, List.cons_append]

end Layering
