import Mathlib.Data.List.Induction
import Mathlib.Data.List.Perm.Basic
import Mathlib.Tactic.Common

/-!
# Grouping by key, in order of first occurrence

Values with keys are put into groups one by one: a value goes to the end of the group of its key,
or starts a group after all others.

* `add`, `groups` — one value, and a list of them.
* `distinct` — the keys of a list, each where it occurs first.
* `groups_eq` — the groups are the distinct keys with all their values in order.
* `groups_perm` — no value is lost and none is duplicated.
* `distinct_pairwise` — the keys come in the order of their first occurrences.
-/

set_option autoImplicit false

namespace Grouping

variable {κ β : Type} [DecidableEq κ]

/-- A value goes to the first group of its key, or starts a group at the end. -/
def add (k : κ) (v : β) : List (κ × List β) → List (κ × List β)
  | [] => [(k, [v])]
  | (seen, vs) :: gs => if seen = k then (seen, vs ++ [v]) :: gs else (seen, vs) :: add k v gs

def groups (items : List (κ × β)) : List (κ × List β) :=
  items.foldl (fun gs (k, v) => add k v gs) []

/-- The values of one key, in order. -/
def valuesOf (k : κ) (items : List (κ × β)) : List β := (items.filter (·.1 = k)).map (·.2)

/-- The keys, each where it occurs first. -/
def distinct (ks : List κ) : List κ :=
  ks.foldl (fun seen k => if k ∈ seen then seen else seen ++ [k]) []

/-! ## The distinct keys -/

theorem distinct_append_singleton (ks : List κ) (k : κ) :
    distinct (ks ++ [k]) = if k ∈ distinct ks then distinct ks else distinct ks ++ [k] := by
  rw [distinct, List.foldl_append]
  rfl

theorem mem_distinct {ks : List κ} {k : κ} : k ∈ distinct ks ↔ k ∈ ks := by
  induction ks using List.reverseRecOn with
  | nil => rfl
  | append_singleton ks k' ih =>
    rw [distinct_append_singleton, List.mem_append, List.mem_singleton]
    split_ifs with h
    · rw [ih]
      refine (or_iff_left_of_imp ?_).symm
      rintro rfl
      exact ih.1 h
    · rw [List.mem_append, List.mem_singleton, ih]

/-- **The keys come in the order of their first occurrences.** -/
theorem distinct_pairwise (ks : List κ) :
    (distinct ks).Pairwise fun a b => ks.idxOf a < ks.idxOf b := by
  induction ks using List.reverseRecOn with
  | nil => exact .nil
  | append_singleton ks k ih =>
    -- a key that was there keeps its place
    have hold : ∀ a ∈ distinct ks, (ks ++ [k]).idxOf a = ks.idxOf a := fun a ha =>
      List.idxOf_append_of_mem (mem_distinct.1 ha)
    have hpairwise : (distinct ks).Pairwise fun a b => (ks ++ [k]).idxOf a < (ks ++ [k]).idxOf b :=
      ih.imp_of_mem fun ha hb h => by rwa [hold _ ha, hold _ hb]
    rw [distinct_append_singleton]
    split_ifs with h
    · exact hpairwise
    · refine List.pairwise_append.2 ⟨hpairwise, List.pairwise_singleton _ _, fun a ha b hb => ?_⟩
      rw [List.mem_singleton.1 hb, hold a ha,
        List.idxOf_append_of_notMem fun hk => h (mem_distinct.2 hk)]
      have hlt := List.idxOf_lt_length_of_mem (mem_distinct.1 ha)
      omega

theorem distinct_nodup (ks : List κ) : (distinct ks).Nodup :=
  (distinct_pairwise ks).imp fun h heq => by
    rw [heq] at h
    exact absurd h (Nat.lt_irrefl _)

/-! ## The groups -/

theorem groups_append_singleton (items : List (κ × β)) (k : κ) (v : β) :
    groups (items ++ [(k, v)]) = add k v (groups items) := by
  rw [groups, List.foldl_append]
  rfl

theorem valuesOf_append_singleton (items : List (κ × β)) (k k' : κ) (v : β) :
    valuesOf k' (items ++ [(k, v)]) =
      if k = k' then valuesOf k' items ++ [v] else valuesOf k' items := by
  unfold valuesOf
  rw [List.filter_append, List.map_append]
  split_ifs with h <;> simp [h]

/-- The first group of the key is searched, and updated in place. -/
theorem add_eq_findIdx? (k : κ) (v : β) (gs : List (κ × List β)) :
    add k v gs =
      match gs.findIdx? fun (seen, _) => seen = k with
      | some i => gs.modify i fun (seen, vs) => (seen, vs ++ [v])
      | none => gs ++ [(k, [v])] := by
  induction gs with
  | nil => rfl
  | cons g gs ih =>
    obtain ⟨seen, vs⟩ := g
    rw [add, List.findIdx?_cons]
    by_cases h : seen = k
    · simp [h]
    · rw [if_neg h, ih]
      simp only [h, decide_false, Bool.false_eq_true, if_false]
      cases gs.findIdx? fun (seen, _) => seen = k with
      | some i => rfl
      | none => rfl

/-- A key that has no group starts one. -/
theorem add_of_notMem {k : κ} {v : β} : ∀ {gs : List (κ × List β)}, k ∉ gs.map (·.1) →
    add k v gs = gs ++ [(k, [v])] := by
  intro gs
  induction gs with
  | nil =>
    intro _
    rfl
  | cons g gs ih =>
    intro h
    simp only [List.map_cons, List.mem_cons, not_or] at h
    rw [add, if_neg fun heq => h.1 heq.symm, ih h.2, List.cons_append]

/-- A key that has a group adds to it, and to no other. -/
theorem add_of_mem {k : κ} {v : β} (f : κ → List β) : ∀ {ks : List κ}, ks.Nodup → k ∈ ks →
    add k v (ks.map fun k' => (k', f k')) =
      ks.map fun k' => (k', if k = k' then f k' ++ [v] else f k') := by
  intro ks
  induction ks with
  | nil =>
    intro _ h
    cases h
  | cons k' ks ih =>
    intro hnodup hmem
    obtain ⟨hnot, hnodup⟩ := List.nodup_cons.1 hnodup
    rw [List.map_cons, List.map_cons, add]
    by_cases hk : k' = k
    · subst hk
      rw [if_pos rfl, if_pos rfl]
      refine congrArg _ (List.map_congr_left fun k'' hk'' => ?_)
      have hne : k' ≠ k'' := fun heq => hnot (heq ▸ hk'')
      rw [if_neg hne]
    · rw [if_neg hk, if_neg (Ne.symm hk), ih hnodup (List.mem_of_ne_of_mem (Ne.symm hk) hmem)]

/-- **The groups are the distinct keys, each with all its values in order.** -/
theorem groups_eq (items : List (κ × β)) :
    groups items = (distinct (items.map (·.1))).map fun k => (k, valuesOf k items) := by
  induction items using List.reverseRecOn with
  | nil => rfl
  | append_singleton items item ih =>
    obtain ⟨k, v⟩ := item
    rw [groups_append_singleton, ih, List.map_append, List.map_singleton,
      distinct_append_singleton]
    split_ifs with h
    · rw [add_of_mem _ (distinct_nodup _) h]
      simp only [valuesOf_append_singleton]
    · have hnew : valuesOf k items = [] := by
        rw [mem_distinct] at h
        simp only [valuesOf, List.map_eq_nil_iff, List.filter_eq_nil_iff, decide_eq_true_eq]
        intro item hitem heq
        exact h (heq ▸ List.mem_map_of_mem (f := (·.1)) hitem)
      rw [add_of_notMem (by simpa [Function.comp_def] using h), List.map_append,
        List.map_singleton, valuesOf_append_singleton, if_pos rfl, hnew]
      refine congrArg (· ++ _) (List.map_congr_left fun k' hk' => ?_)
      have hne : k ≠ k' := fun heq => h (heq ▸ hk')
      rw [valuesOf_append_singleton, if_neg hne]

/-- One value is added to what is in the groups. -/
theorem add_perm (k : κ) (v : β) (gs : List (κ × List β)) :
    ((add k v gs).flatMap (·.2)).Perm (gs.flatMap (·.2) ++ [v]) := by
  induction gs with
  | nil => exact .refl _
  | cons g gs ih =>
    rw [add]
    split_ifs with h
    · simp only [List.flatMap_cons, List.append_assoc]
      exact .append_left _ List.perm_append_comm
    · simp only [List.flatMap_cons, List.append_assoc]
      exact ih.append_left _

/-- **No value is lost and none is duplicated.** -/
theorem groups_perm (items : List (κ × β)) :
    ((groups items).flatMap (·.2)).Perm (items.map (·.2)) := by
  induction items using List.reverseRecOn with
  | nil => exact .refl _
  | append_singleton items item ih =>
    rw [groups_append_singleton, List.map_append]
    exact (add_perm _ _ _).trans (ih.append_right _)

end Grouping
