import Mathlib.Order.Lattice
import Mathlib.Data.List.Chain
import Mathlib.Data.List.Pairwise
import Mathlib.Tactic.Common
import VersionedEnvelope.Exec

/-!
# Strictly ascending lists and binary search

Facts about lists that are strictly ascending in a linear order, and the binary search of
Rust's `slice::binary_search` over them.

* `binarySearch_isOk` — on an ascending list the search finds exactly the elements.
* `binarySearchIndexed_eq` — on any list it ends, and every index it looks at is in range.
* `Ascending.le_getLast`, `Ascending.head_le` — the last element is the maximum and the first
  the minimum.
* `Ascending.position` — a value that is not in the list is above it, below it or between two
  neighbours, and the two ends tell which.
* `above_lt` — how many elements lie above a bound is a measure that drops when the bound
  moves up to an element of the list.
-/

set_option autoImplicit false

/-- The order of the 32-bit machine integers is linear. -/
instance UInt32.instLinearOrder : LinearOrder UInt32 where
  le_refl := fun _ => UInt32.le_refl _
  le_trans := fun _ _ _ => UInt32.le_trans
  lt_iff_le_not_ge := fun a b => by
    simp only [UInt32.lt_iff_toNat_lt, UInt32.le_iff_toNat_le]; omega
  le_antisymm := fun _ _ => UInt32.le_antisymm
  le_total := UInt32.le_total
  toDecidableLE := inferInstance
  toDecidableEq := inferInstance
  toDecidableLT := inferInstance

variable {α : Type} [LinearOrder α]

/-- Every earlier element is smaller than every later one. -/
def Ascending (xs : List α) : Prop := xs.Pairwise (· < ·)

instance (xs : List α) : Decidable (Ascending xs) :=
  inferInstanceAs (Decidable (xs.Pairwise (· < ·)))

namespace Ascending

variable {xs : List α}

/-- Neighbours decide it. -/
theorem of_neighbours (h : ∀ i (hi : i + 1 < xs.length), xs[i] < xs[i + 1]) : Ascending xs :=
  List.isChain_iff_pairwise.1 (List.isChain_iff_getElem.2 h)

theorem getElem_lt (h : Ascending xs) {i j : Nat} (hij : i < j) (hj : j < xs.length) :
    xs[i] < xs[j] :=
  List.pairwise_iff_getElem.1 h i j (Nat.lt_trans hij hj) hj hij

theorem nodup (h : Ascending xs) : xs.Nodup := h.imp ne_of_lt

/-- The last element is the maximum. -/
theorem le_getLast (h : Ascending xs) {x : α} (hx : x ∈ xs) (hne : xs ≠ []) :
    x ≤ xs.getLast hne := by
  obtain ⟨i, hi, rfl⟩ := List.mem_iff_getElem.1 hx
  rw [List.getLast_eq_getElem]
  rcases Nat.lt_or_ge i (xs.length - 1) with hlt | hge
  · exact (h.getElem_lt hlt (by omega)).le
  · simp only [show i = xs.length - 1 by omega, le_refl]

/-- The first element is the minimum. -/
theorem head_le (h : Ascending xs) {x : α} (hx : x ∈ xs) (hne : xs ≠ []) :
    xs.head hne ≤ x := by
  cases xs with
  | nil => exact absurd rfl hne
  | cons y ys =>
    rcases List.mem_cons.1 hx with rfl | hmem
    · exact le_refl _
    · exact (List.rel_of_pairwise_cons h hmem).le

/-- The elements from the `i`-th on are all that are not below it. -/
theorem countP_getElem_le (h : Ascending xs) {i : Nat} (hi : i < xs.length) :
    xs.countP (xs[i] ≤ ·) ≤ xs.length - i := by
  have htake : (xs.take i).countP (xs[i] ≤ ·) = 0 := by
    refine List.countP_eq_zero.2 fun x hx => ?_
    obtain ⟨k, hk, rfl⟩ := List.mem_take_iff_getElem.1 hx
    simpa using h.getElem_lt (by omega) hi
  have hdrop : (xs.drop i).countP (xs[i] ≤ ·) ≤ (xs.drop i).length := List.countP_le_length
  calc xs.countP (xs[i] ≤ ·)
      = (xs.take i).countP (xs[i] ≤ ·) + (xs.drop i).countP (xs[i] ≤ ·) := by
        rw [← List.countP_append, List.take_append_drop]
    _ ≤ xs.length - i := by rw [htake, List.length_drop] at *; omega

/-- A greater element may be added at the end. -/
theorem append_singleton (h : Ascending xs) {y : α} (hy : ∀ x ∈ xs, x < y) :
    Ascending (xs ++ [y]) :=
  List.pairwise_append.2 ⟨h, List.pairwise_singleton _ _, fun x hx z hz => by
    rw [List.mem_singleton.1 hz]; exact hy x hx⟩

/-- What is in an ascending list, or below it, is so past the first element. -/
theorem mem_tail_or_lt (h : Ascending xs) {x : α} (hx : x ∈ xs ∨ ∀ y ∈ xs, x < y) :
    x ∈ xs.tail ∨ ∀ y ∈ xs.tail, x < y := by
  rcases hx with hmem | hbelow
  · obtain ⟨first, rest, rfl⟩ := List.exists_cons_of_ne_nil (List.ne_nil_of_mem hmem)
    rcases List.mem_cons.1 hmem with rfl | hrest
    · exact .inr (List.pairwise_cons.1 h).1
    · exact .inl hrest
  · exact .inr fun y hy => hbelow y (List.mem_of_mem_tail hy)

/-- It is so with one more element above one of the list. -/
theorem mem_append_or_lt {x y z : α} (hy : y ∈ xs) (hyz : y < z)
    (hx : x ∈ xs ∨ ∀ y ∈ xs, x < y) : x ∈ xs ++ [z] ∨ ∀ y ∈ xs ++ [z], x < y := by
  rcases hx with hmem | hbelow
  · exact .inl (List.mem_append_left _ hmem)
  · refine .inr fun w hw => ?_
    rcases List.mem_append.1 hw with hmem | hmem
    · exact hbelow w hmem
    · rw [List.mem_singleton.1 hmem]
      exact (hbelow y hy).trans hyz

end Ascending

/-! ## Where a value stands that is not in the list -/

/-- What lies above the first element and below the last one, but is not in the list, lies between
    two neighbours. -/
theorem exists_neighbours {x : α} : ∀ {y : α} {ys : List α} (hne : y :: ys ≠ []), x ∉ y :: ys →
    y < x → x < (y :: ys).getLast hne → ∃ a b, [a, b] <:+: y :: ys ∧ a < x ∧ x < b := by
  intro y ys
  induction ys generalizing y with
  | nil =>
    intro _ _ hy hlast
    exact absurd hlast hy.not_gt
  | cons z zs ih =>
    intro hne hx hy hlast
    rcases lt_trichotomy x z with hlt | rfl | hgt
    · exact ⟨y, z, List.IsPrefix.isInfix ⟨zs, rfl⟩, hy, hlt⟩
    · exact absurd (List.mem_cons_of_mem _ (List.mem_cons_self ..)) hx
    · rw [List.getLast_cons (List.cons_ne_nil z zs)] at hlast
      obtain ⟨a, b, hab, ha, hb⟩ := ih _ (fun h => hx (List.mem_cons_of_mem _ h)) hgt hlast
      exact ⟨a, b, List.infix_cons hab, ha, hb⟩

/-- **Three places, and no other**: above the whole list, below it, or between neighbours; the two
    ends of the list tell which. -/
theorem Ascending.position {xs : List α} (h : Ascending xs) (hne : xs ≠ []) {x : α} (hx : x ∉ xs) :
    (xs.getLast hne < x ↔ ∀ y ∈ xs, y < x) ∧ (x < xs.head hne ↔ ∀ y ∈ xs, x < y) ∧
    (¬ xs.getLast hne < x ∧ ¬ x < xs.head hne ↔ ∃ a b, [a, b] <:+: xs ∧ a < x ∧ x < b) := by
  refine ⟨⟨fun hlt y hy => (h.le_getLast hy hne).trans_lt hlt,
      fun hall => hall _ (xs.getLast_mem hne)⟩,
    ⟨fun hlt y hy => hlt.trans_le (h.head_le hy hne), fun hall => hall _ (xs.head_mem hne)⟩, ?_⟩
  constructor
  · rintro ⟨hlast, hhead⟩
    have hlast : x < xs.getLast hne := lt_of_le_of_ne (not_lt.1 hlast) fun heq =>
      hx (heq ▸ xs.getLast_mem hne)
    have hhead : xs.head hne < x := lt_of_le_of_ne (not_lt.1 hhead) fun heq =>
      hx (heq ▸ xs.head_mem hne)
    cases xs with
    | nil => exact absurd rfl hne
    | cons y ys => exact exists_neighbours hne hx hhead hlast
  · rintro ⟨a, b, hab, ha, hb⟩
    have hmem_a : a ∈ xs := hab.subset (List.mem_cons_self ..)
    have hmem_b : b ∈ xs := hab.subset (List.mem_cons_of_mem _ (List.mem_cons_self ..))
    exact ⟨fun hlast => absurd ((h.le_getLast hmem_b hne).trans_lt hlast) hb.not_gt,
      fun hhead => absurd (hhead.trans_le (h.head_le hmem_a hne)) ha.not_gt⟩

/-! ## Binary search -/

/-- The loop of `slice::binary_search`: `base` is the last index known not to hold a greater
    element, `size` how many candidates are left; the fuel is the length of the slice. -/
def searchBase (xs : List α) (x : α) : Nat → Nat → Nat → Nat
  | 0, base, _ => base
  | fuel + 1, base, size =>
    if size ≤ 1 then base
    else
      let half := size / 2
      let mid := base + half
      let base' := match xs[mid]? with
        | some y => if x < y then base else mid
        | none => base
      searchBase xs x fuel base' (size - half)

/-- `slice::binary_search`: the index of the element, or the index to insert it at. -/
def binarySearch (xs : List α) (x : α) : Except Nat Nat :=
  match xs[searchBase xs x xs.length 0 xs.length]? with
  | none => .error 0
  | some y =>
    let base := searchBase xs x xs.length 0 xs.length
    if y = x then .ok base else .error (if y < x then base + 1 else base)

/-- The search keeps every index that can hold the element between `base` and
    `base + size`, and ends at a single candidate. -/
theorem searchBase_spec {xs : List α} (h : Ascending xs) {x : α} {k : Nat}
    (hk : k < xs.length) (hx : xs[k] = x) :
    ∀ fuel base size, size ≤ fuel → base + size ≤ xs.length → base ≤ k → k < base + size →
      searchBase xs x fuel base size = k := by
  intro fuel
  induction fuel with
  | zero =>
    intro base size hf _ h1 h2
    omega
  | succ fuel ih =>
    intro base size hf hs h1 h2
    unfold searchBase
    split
    · omega
    · rename_i hsize
      have hmid : base + size / 2 < xs.length := by omega
      simp only [List.getElem?_eq_getElem hmid]
      split
      · rename_i hlt
        -- a greater element at `mid`: the element lies below it
        have hkm : k < base + size / 2 := by
          by_contra hge
          rcases Nat.lt_or_eq_of_le (Nat.le_of_not_lt hge) with hlt' | heq
          · exact absurd (h.getElem_lt hlt' hk) (by rw [hx]; exact hlt.not_gt)
          · simp only [heq, hx, lt_irrefl] at hlt
        exact ih base _ (by omega) (by omega) h1 (by omega)
      · rename_i hge
        have hkm : base + size / 2 ≤ k := by
          by_contra hlt
          have := h.getElem_lt (Nat.lt_of_not_le hlt) hmid
          exact hge (hx ▸ this)
        exact ih (base + size / 2) (size - size / 2) (by omega) (by omega) hkm (by omega)

/-- **On an ascending list the binary search finds exactly the elements.** -/
theorem binarySearch_isOk {xs : List α} (h : Ascending xs) (x : α) :
    (binarySearch xs x).isOk = true ↔ x ∈ xs := by
  unfold binarySearch
  constructor
  · intro hok
    split at hok
    · cases hok
    · rename_i y hy
      split at hok
      · rename_i he
        exact he ▸ List.mem_of_getElem? hy
      · cases hok
  · intro hx
    obtain ⟨k, hk, hkx⟩ := List.mem_iff_getElem.1 hx
    rw [searchBase_spec h hk hkx xs.length 0 xs.length (Nat.le_refl _) (by omega)
      (Nat.zero_le k) (by omega)]
    simp only [List.getElem?_eq_getElem hk, hkx, if_true]
    rfl

/-! ## Binary search, with every index checked -/

/-- One turn of the loop of `slice::binary_search`. -/
def searchTurn (xs : List α) (x : α) : Nat × Nat → Exec Empty (Exec.Flow (Nat × Nat) Nat) :=
  fun (base, size) =>
    if size ≤ 1 then .ok (.done base)
    else do
      let half := size / 2
      let mid := base + half
      let y ← Exec.index xs mid
      pure (.next (if x < y then base else mid, size - half))

/-- `slice::binary_search`, where an index out of range would panic. -/
def binarySearchIndexed (fuel : Nat) (xs : List α) (x : α) : Exec Empty (Except Nat Nat) :=
  if xs.length = 0 then pure (.error 0)
  else do
    let base ← Exec.loop (searchTurn xs x) fuel (0, xs.length)
    let y ← Exec.index xs base
    if y = x then pure (.ok base) else pure (.error (if y < x then base + 1 else base))

theorem searchTurn_next {xs : List α} {x : α} {base size : Nat} (hsize : ¬ size ≤ 1)
    (hmid : base + size / 2 < xs.length) :
    searchTurn xs x (base, size) =
      .ok (.next (if x < xs[base + size / 2] then base else base + size / 2, size - size / 2)) := by
  simp only [searchTurn, if_neg hsize, Exec.index_of_lt hmid, Exec.ok_bind, Exec.pure_eq]

/-- While the candidates are in the list, the loop ends, with nothing out of range. -/
theorem searchTurn_loop {xs : List α} {x : α} : ∀ fuel base size, size ≤ fuel →
    base + size ≤ xs.length →
    Exec.loop (searchTurn xs x) (fuel + 1) (base, size) = .ok (searchBase xs x fuel base size) := by
  intro fuel
  induction fuel with
  | zero =>
    intro base size hfuel _
    apply Exec.loop_done
    rw [searchTurn, if_pos (by omega)]
    rfl
  | succ fuel ih =>
    intro base size hfuel hsize
    unfold searchBase
    by_cases hone : size ≤ 1
    · rw [if_pos hone]
      apply Exec.loop_done
      rw [searchTurn, if_pos hone]
    · have hmid : base + size / 2 < xs.length := by omega
      rw [Exec.loop_next (searchTurn_next hone hmid), if_neg hone]
      simp only [List.getElem?_eq_getElem hmid]
      split
      · exact ih base (size - size / 2) (by omega) (by omega)
      · exact ih (base + size / 2) (size - size / 2) (by omega) (by omega)

/-- The index that is left is one of the list. -/
theorem searchBase_lt {xs : List α} {x : α} : ∀ fuel base size, 1 ≤ size →
    base + size ≤ xs.length → searchBase xs x fuel base size < xs.length := by
  intro fuel
  induction fuel with
  | zero =>
    intro base size hpos hsize
    show base < xs.length
    omega
  | succ fuel ih =>
    intro base size hpos hsize
    unfold searchBase
    split
    · omega
    · have hmid : base + size / 2 < xs.length := by omega
      simp only [List.getElem?_eq_getElem hmid]
      split
      · exact ih base (size - size / 2) (by omega) (by omega)
      · exact ih (base + size / 2) (size - size / 2) (by omega) (by omega)

/-- **On any list the search ends, and every index it looks at is in range**, in whatever order
    the elements are. -/
theorem binarySearchIndexed_eq {xs : List α} {fuel : Nat} (h : xs.length < fuel) (x : α) :
    binarySearchIndexed fuel xs x = .ok (binarySearch xs x) := by
  unfold binarySearchIndexed binarySearch
  by_cases hnil : xs.length = 0
  · rw [if_pos hnil, List.getElem?_eq_none (by omega)]
    rfl
  · have hends : Exec.loop (searchTurn xs x) (xs.length + 1) (0, xs.length) =
        .ok (searchBase xs x xs.length 0 xs.length) :=
      searchTurn_loop _ _ _ (Nat.le_refl _) (by omega)
    have hloop := Exec.loop_of_le (by rw [hends]; simp) h
    have hbase : searchBase xs x xs.length 0 xs.length < xs.length :=
      searchBase_lt _ _ _ (by omega) (by omega)
    rw [if_neg hnil, hloop, hends, Exec.ok_bind, Exec.index_of_lt hbase, Exec.ok_bind,
      List.getElem?_eq_getElem hbase]
    dsimp only
    split_ifs <;> rfl

/-! ## Elements above a bound -/

/-- How many elements of `xs` are greater than `x`. -/
def above (xs : List α) (x : α) : Nat := xs.countP (x < ·)

theorem above_le_length (xs : List α) (x : α) : above xs x ≤ xs.length := List.countP_le_length

/-- Moving the bound up to an element of the list leaves fewer elements above it. -/
theorem above_lt {xs : List α} {x y : α} (hxy : x < y) (hy : y ∈ xs) :
    above xs y < above xs x := by
  unfold above
  induction xs with
  | nil => cases hy
  | cons z zs ih =>
    rw [List.countP_cons, List.countP_cons]
    have hmono : zs.countP (y < ·) ≤ zs.countP (x < ·) :=
      List.countP_mono_left fun w _ hw => by
        simp only [decide_eq_true_eq] at hw ⊢; exact hxy.trans hw
    rcases List.mem_cons.1 hy with rfl | hmem
    · simp only [lt_irrefl, decide_false, Bool.false_eq_true, if_false, hxy, decide_true, if_true]
      omega
    · have := ih hmem
      by_cases hyz : y < z
      · simp only [hyz, hxy.trans hyz, decide_true, if_true]; omega
      · simp only [hyz, decide_false, Bool.false_eq_true, if_false]; omega
