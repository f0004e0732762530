import VersionedEnvelope.Json.Lexer

/-!
# JSON text: values and documents

The executable reader: a value is read with a budget of nesting levels, an array or object
using one of them.  A document is one value and whitespace.

* `collect` — the one loop behind arrays and objects: separators, items, closing bracket.
* `readValue`, `document` — values and whole documents.
* `readValue_reads` — a value depends on its own text only.
* `readValue_iff_nesting` — the budget is used for nothing but refusing what nests too deep.
* `readMembers` — the members of the object at the root, each with the place of its value.
-/

set_option autoImplicit false

/-- A JSON value.  Numbers keep their literal; objects keep their members in order, repeated
    keys included. -/
inductive Json where
  | null
  | bool (b : Bool)
  | number (literal : Bytes)
  | string (s : String)
  | array (elements : List Json)
  | object (members : List (String × Json))

namespace Json

/-! ## Nesting -/

mutual
/-- How many arrays and objects are open at the deepest place. -/
def nesting : Json → Nat
  | .array xs => nestingElements xs + 1
  | .object ms => nestingMembers ms + 1
  | _ => 0
def nestingElements : List Json → Nat
  | [] => 0
  | x :: xs => max (nesting x) (nestingElements xs)
def nestingMembers : List (String × Json) → Nat
  | [] => 0
  | (_, x) :: ms => max (nesting x) (nestingMembers ms)
end

theorem nestingElements_lt {d : Nat} (hd : 0 < d) {xs : List Json} :
    nestingElements xs < d ↔ ∀ x ∈ xs, x.nesting < d := by
  induction xs with
  | nil => simp [nestingElements, hd]
  | cons x xs ih => simp only [nestingElements, Nat.max_lt, ih, List.mem_cons, forall_eq_or_imp]

theorem nestingMembers_lt {d : Nat} (hd : 0 < d) {ms : List (String × Json)} :
    nestingMembers ms < d ↔ ∀ m ∈ ms, m.2.nesting < d := by
  induction ms with
  | nil => simp [nestingMembers, hd]
  | cons m ms ih => simp only [nestingMembers, Nat.max_lt, ih, List.mem_cons, forall_eq_or_imp]

/-! ## The reader -/

variable {κ α : Type}

/-- The next item of an array or object that ends with `close`: nothing when the closing
    bracket is next, else what opens the item, after the comma unless it is the first. -/
def nextItem (close : UInt8) (opens : Bytes → Option (κ × Bytes)) (first : Bool) (w : Bytes) :
    Option (Option κ × Bytes) :=
  match skipWs w with
  | [] => none
  | b :: r =>
    if b = close then some (none, b :: r)
    else if first then (opens (b :: r)).map fun (k, r') => (some k, r')
    else if b = Byte.comma then
      match skipWs r with
      | [] => none
      | b' :: r' =>
        if b' = close then none
        else (opens (b' :: r')).map fun (k, r'') => (some k, r'')
    else none

/-- An element has nothing before its value. -/
def openElement (w : Bytes) : Option (Unit × Bytes) := some ((), w)

/-- A member starts with its key. -/
def openKey : Bytes → Option (String × Bytes)
  | [] => none
  | b :: r => if b = Byte.quote then parseStr r else none

def nextElement : Bool → Bytes → Option (Option Unit × Bytes) := nextItem Byte.rbracket openElement

def nextKey : Bool → Bytes → Option (Option String × Bytes) := nextItem Byte.rbrace openKey

/-- The items of an array or object, to its closing bracket. -/
def collect (next : Bool → Bytes → Option (Option κ × Bytes)) (close : UInt8)
    (value : Bytes → Option (α × Bytes)) : Nat → Bool → Bytes → Option (List (κ × α) × Bytes)
  | 0, _, _ => none
  | n + 1, first, w =>
    match next first w with
    | none => none
    | some (none, r) => (punct close r).map fun r' => ([], r')
    | some (some k, r) =>
      match value r with
      | none => none
      | some (x, r') =>
        (collect next close value n false r').map fun (xs, r'') => ((k, x) :: xs, r'')

/-- A member's value, after the colon. -/
def memberValue (value : Bytes → Option (α × Bytes)) (w : Bytes) : Option (α × Bytes) :=
  (punct Byte.colon w).bind value

def elements (value : Bytes → Option (α × Bytes)) (w : Bytes) :
    Option (List (Unit × α) × Bytes) :=
  collect nextElement Byte.rbracket value (w.length + 1) true w

def members (value : Bytes → Option (α × Bytes)) (w : Bytes) :
    Option (List (String × α) × Bytes) :=
  collect nextKey Byte.rbrace (memberValue value) (w.length + 1) true w

/-- A token that is a value by itself. -/
def Token.scalar (inRange : Bytes → Bool) : Token → Option Json
  | .null => some .null
  | .bool b => some (.bool b)
  | .number lit => if (numberVisit inRange lit).isSome then some (.number lit) else none
  | .string s => some (.string s)
  | .openArray => none
  | .openObject => none

/-- The value at the front of the input, with `d - 1` levels of nesting to spare. -/
def readValue (inRange : Bytes → Bool) : Nat → Bytes → Option (Json × Bytes)
  | 0, _ => none
  | d + 1, w =>
    match token w with
    | none => none
    | some (.openArray, r) =>
      if d = 0 then none
      else (elements (readValue inRange d) r).map fun (xs, r') => (.array (xs.map (·.2)), r')
    | some (.openObject, r) =>
      if d = 0 then none
      else (members (readValue inRange d) r).map fun (ms, r') => (.object ms, r')
    | some (t, r) => (t.scalar inRange).map (·, r)

/-- A document nested this deep is refused. -/
def recursionLimit : Nat := 128

/-- One value, and nothing but whitespace around it. -/
def document (inRange : Bytes → Bool) (bytes : Bytes) : Option Json :=
  (readValue inRange recursionLimit bytes).bind fun (j, r) =>
    if skipWs r = [] then some j else none

/-! ## The loop -/

section Collect

variable {next : Bool → Bytes → Option (Option κ × Bytes)} {close : UInt8}
  {value : Bytes → Option (α × Bytes)}

/-- One turn of the loop. -/
theorem collect_cases {n : Nat} {first : Bool} {w r : Bytes} {xs : List (κ × α)}
    (h : collect next close value (n + 1) first w = some (xs, r)) :
    (xs = [] ∧ ∃ r₀, next first w = some (none, r₀) ∧ punct close r₀ = some r) ∨
    (∃ k x ys r₀ r₁, xs = (k, x) :: ys ∧ next first w = some (some k, r₀) ∧
      value r₀ = some (x, r₁) ∧ collect next close value n false r₁ = some (ys, r)) := by
  unfold collect at h
  split at h
  · cases h
  · rename_i r₀ hnext
    simp only [Option.map_eq_some_iff, Prod.mk.injEq] at h
    obtain ⟨r', hp, rfl, rfl⟩ := h
    exact .inl ⟨rfl, r₀, hnext, hp⟩
  · rename_i k r₀ hnext
    split at h
    · cases h
    · rename_i x r₁ hval
      simp only [Option.map_eq_some_iff, Prod.exists, Prod.mk.injEq] at h
      obtain ⟨ys, r', hrec, rfl, rfl⟩ := h
      exact .inr ⟨k, x, ys, r₀, r₁, rfl, hnext, hval, hrec⟩

theorem collect_nil {n : Nat} {first : Bool} {w r₀ r : Bytes}
    (hnext : next first w = some (none, r₀)) (hp : punct close r₀ = some r) :
    collect next close value (n + 1) first w = some ([], r) := by
  simp [collect, hnext, hp]

theorem collect_cons {n : Nat} {first : Bool} {w r₀ r₁ r : Bytes} {k : κ} {x : α}
    {ys : List (κ × α)} (hnext : next first w = some (some k, r₀))
    (hval : value r₀ = some (x, r₁)) (hrec : collect next close value n false r₁ = some (ys, r)) :
    collect next close value (n + 1) first w = some ((k, x) :: ys, r) := by
  simp [collect, hnext, hval, hrec]

/-- Every item read satisfies what the item reader guarantees. -/
theorem collect_forall {P : α → Prop} (hP : ∀ w x r, value w = some (x, r) → P x) :
    ∀ {n : Nat} {first : Bool} {w r : Bytes} {xs : List (κ × α)},
      collect next close value n first w = some (xs, r) → ∀ x ∈ xs, P x.2 := by
  intro n
  induction n with
  | zero =>
    intro first w r xs h
    cases h
  | succ n ih =>
    intro first w r xs h
    rcases collect_cases h with ⟨rfl, -⟩ | ⟨k, x, ys, r₀, r₁, rfl, -, hval, hrec⟩
    · simp
    · intro y hy
      rcases List.mem_cons.1 hy with rfl | hy
      · exact hP _ _ _ hval
      · exact ih hrec y hy

/-- An item reader that reads the same items gives the same collection. -/
theorem collect_congr {value' : Bytes → Option (α × Bytes)} :
    ∀ {n : Nat} {first : Bool} {w r : Bytes} {xs : List (κ × α)},
      (∀ x ∈ xs, ∀ w r, value w = some (x.2, r) → value' w = some (x.2, r)) →
      collect next close value n first w = some (xs, r) →
      collect next close value' n first w = some (xs, r) := by
  intro n
  induction n with
  | zero =>
    intro first w r xs _ h
    cases h
  | succ n ih =>
    intro first w r xs hv h
    rcases collect_cases h with ⟨rfl, r₀, hnext, hp⟩ | ⟨k, x, ys, r₀, r₁, rfl, hnext, hval, hrec⟩
    · exact collect_nil hnext hp
    · have hrest := ih (fun y hy => hv y (List.mem_cons_of_mem _ hy)) hrec
      exact collect_cons hnext (hv _ (List.mem_cons_self ..) _ _ hval) hrest

/-- The image of a collection. -/
theorem collect_map {β : Type} {value' : Bytes → Option (β × Bytes)} (f : α → β)
    (hf : ∀ w, value' w = (value w).map fun (x, r) => (f x, r)) :
    ∀ (n : Nat) (first : Bool) (w : Bytes),
      collect next close value' n first w =
        (collect next close value n first w).map fun (xs, r) =>
          (xs.map fun (k, x) => (k, f x), r) := by
  intro n
  induction n with
  | zero =>
    intro first w
    rfl
  | succ n ih =>
    intro first w
    unfold collect
    rcases hnext : next first w with _ | ⟨_ | k, r₀⟩
    · rfl
    · simp only
      cases punct close r₀ <;> rfl
    · simp only [hf r₀]
      rcases value r₀ with _ | ⟨x, r₁⟩
      · rfl
      · simp only [Option.map_some, ih false r₁]
        cases collect next close value n false r₁ <;> rfl

end Collect

/-! ## Reading depends on the text read only -/

section Reads

variable {close : UInt8} {opens : Bytes → Option (κ × Bytes)} {value : Bytes → Option (α × Bytes)}

/-- What opens an item depends on its text and on the byte after it at most. -/
def Opens (opens : Bytes → Option (κ × Bytes)) : Prop :=
  ∀ w k r, opens w = some (k, r) →
    ∃ t, w = t ++ r ∧ ∀ r', r'.head? = r.head? → opens (t ++ r') = some (k, r')

theorem openElement_opens : Opens openElement := by
  intro w k r h
  simp only [openElement, Option.some.injEq, Prod.mk.injEq] at h
  obtain ⟨-, rfl⟩ := h
  exact ⟨[], rfl, fun r' _ => rfl⟩

theorem openKey_opens : Opens openKey := by
  intro w k r h
  cases w with
  | nil => cases h
  | cons b w =>
    simp only [openKey, Option.ite_none_right_eq_some] at h
    obtain ⟨hb, hs⟩ := h
    obtain ⟨t, rfl, -, hext⟩ := parseStr_reads hs
    exact ⟨b :: t, rfl, fun r' _ => by simp [openKey, hb, hext r']⟩

/-- The closing bracket is next. -/
theorem nextItem_none {first : Bool} {w r : Bytes}
    (h : nextItem close opens first w = some (none, r)) :
    r = skipWs w ∧ ∃ r', skipWs w = close :: r' := by
  unfold nextItem at h
  split at h
  · cases h
  · rename_i b r' hw
    split at h
    · rename_i hb
      cases h
      exact ⟨hw.symm, r', by rw [hw, hb]⟩
    · split at h
      · simp at h
      · split at h
        · split at h
          · cases h
          · split at h
            · cases h
            · simp at h
        · cases h

theorem nextItem_of_close {first : Bool} {w r : Bytes} (h : skipWs w = close :: r) :
    nextItem close opens first w = some (none, close :: r) := by
  simp [nextItem, h]

/-- An item is next: after a comma, unless it is the first. -/
theorem nextItem_some (ho : Opens opens) {first : Bool} {w r : Bytes} {k : κ}
    (h : nextItem close opens first w = some (some k, r)) :
    ∃ t, skipWs w = t ++ r ∧ (first = false → t.head? = some Byte.comma) ∧
      ∀ w' r', skipWs w' = t ++ r' → r'.head? = r.head? →
        nextItem close opens first w' = some (some k, r') := by
  unfold nextItem at h
  split at h
  · cases h
  rename_i b r₀ hw
  split at h
  · cases h
  rename_i hb
  split at h
  · rename_i hfirst
    simp only [Option.map_eq_some_iff, Prod.exists, Prod.mk.injEq, Option.some.injEq] at h
    obtain ⟨k', r', hk, rfl, rfl⟩ := h
    obtain ⟨t, ht, hext⟩ := ho _ _ _ hk
    refine ⟨t, by rw [hw, ht], by simp [hfirst], fun w' r'' hw' hhead => ?_⟩
    -- the input still starts with the byte that was looked at
    have hbr : (t ++ r'').head? = some b := by
      have : (t ++ r').head? = some b := by rw [← ht]; rfl
      cases t with
      | nil => simpa [hhead] using this
      | cons c t => simpa using this
    obtain ⟨r₁, hr₁⟩ := List.head?_eq_some_iff.1 hbr
    unfold nextItem
    simp only [hw', hr₁, hb, hfirst, if_true, if_false]
    rw [← hr₁, hext r'' hhead]
    rfl
  · rename_i hfirst
    split at h
    · rename_i hcomma
      subst hcomma
      split at h
      · cases h
      rename_i b' r₁ hr₀
      split at h
      · cases h
      rename_i hb'
      simp only [Option.map_eq_some_iff, Prod.exists, Prod.mk.injEq, Option.some.injEq] at h
      obtain ⟨k', r', hk, rfl, rfl⟩ := h
      obtain ⟨t, ht, hext⟩ := ho _ _ _ hk
      obtain ⟨s, hs, hsw⟩ := exists_skipWs r₀
      refine ⟨Byte.comma :: (s ++ t), by rw [hw, hs, hr₀, ht]; simp, fun _ => rfl,
        fun w' r'' hw' hhead => ?_⟩
      have hbr : (t ++ r'').head? = some b' := by
        have : (t ++ r').head? = some b' := by rw [← ht]; rfl
        cases t with
        | nil => simpa [hhead] using this
        | cons c t => simpa using this
      obtain ⟨r₂, hr₂⟩ := List.head?_eq_some_iff.1 hbr
      have hskip : skipWs (s ++ t ++ r'') = b' :: r₂ := by
        rw [List.append_assoc, skipWs_append hsw, hr₂, skipWs_cons (skipWs_eq_cons hr₀)]
      unfold nextItem
      simp only [hw', List.cons_append, hskip, hb, hfirst, Bool.false_eq_true, hb', if_true,
        if_false]
      rw [← hr₂, hext r'' hhead]
      rfl
    · cases h

/-- Opening an item does not move back. -/
theorem nextItem_length (ho : Opens opens) {first : Bool} {w r : Bytes} {k : κ}
    (h : nextItem close opens first w = some (some k, r)) : r.length ≤ w.length := by
  obtain ⟨t, ht, -, -⟩ := nextItem_some ho h
  have := congrArg List.length ht
  rw [List.length_append] at this
  exact Nat.le_trans (by omega) (skipWs_length_le w)

theorem follow_of_head {w : Bytes} {b : UInt8} (h : (skipWs w).head? = some b)
    (hb : continuesNumber b = false) : Follow w :=
  follow_of_skipWs (by intro b' hb'; rw [h] at hb'; cases hb'; exact hb)

/-- **A collection depends on its own text only.**  Its text ends with the closing bracket and,
    when it goes on after an item, starts with a comma or that bracket. -/
theorem collect_reads (ho : Opens opens) (hv : Reads value)
    (hclose : continuesNumber close = false) :
    ∀ {n : Nat} {first : Bool} {w r : Bytes} {xs : List (κ × α)},
      collect (nextItem close opens) close value n first w = some (xs, r) →
      ∃ t, skipWs w = t ++ r ∧ xs.length < t.length ∧
        (first = false → t.head? = some Byte.comma ∨ t.head? = some close) ∧
        ∀ m w' r', xs.length < m → skipWs w' = t ++ r' →
          collect (nextItem close opens) close value m first w' = some (xs, r') := by
  intro n
  induction n with
  | zero =>
    intro first w r xs h
    cases h
  | succ n ih =>
    intro first w r xs h
    rcases collect_cases h with ⟨rfl, r₀, hnext, hp⟩ | ⟨k, x, ys, r₀, r₁, rfl, hnext, hval, hrec⟩
    · obtain ⟨rfl, r', hr'⟩ := nextItem_none hnext
      obtain ⟨hr, -⟩ := punct_reads hp
      rw [skipWs_skipWs] at hr
      refine ⟨[close], hr, by simp, fun _ => .inr rfl, ?_⟩
      intro m w' r'' hm hw'
      obtain ⟨m, rfl⟩ : ∃ m', m = m' + 1 := ⟨m - 1, by simp at hm; omega⟩
      refine collect_nil (nextItem_of_close hw') ?_
      exact (punct_reads hp).2 _ _ (skipWs_cons (skipWs_eq_cons hr) _)
    · obtain ⟨t₀, ht₀, hcomma, hext₀⟩ := nextItem_some ho hnext
      obtain ⟨t₁, hne₁, ht₁, hext₁⟩ := hv _ _ _ hval
      obtain ⟨t₂, ht₂, hlen₂, hhead₂, hext₂⟩ := ih hrec
      obtain ⟨s₁, hs₁, hsw₁⟩ := exists_skipWs r₀
      obtain ⟨s₂, hs₂, hsw₂⟩ := exists_skipWs r₁
      refine ⟨t₀ ++ s₁ ++ t₁ ++ s₂ ++ t₂, ?_, ?_, ?_, ?_⟩
      · rw [ht₀, hs₁, ht₁, hs₂, ht₂]; simp
      · have := List.length_pos_iff.2 hne₁
        simp only [List.length_cons, List.length_append]; omega
      · intro hf
        have := hcomma hf
        left
        cases t₀ with
        | nil => cases this
        | cons b t₀ => simpa using this
      · intro m w' r' hm hw'
        obtain ⟨m, rfl⟩ : ∃ m', m = m' + 1 := ⟨m - 1, by simp at hm; omega⟩
        have hm' : ys.length < m := by simp at hm; omega
        have hw'' : skipWs w' = t₀ ++ (s₁ ++ (t₁ ++ (s₂ ++ (t₂ ++ r')))) := by
          rw [hw']; simp
        have hskip₁ : skipWs (s₁ ++ (t₁ ++ (s₂ ++ (t₂ ++ r')))) = t₁ ++ (s₂ ++ (t₂ ++ r')) := by
          rw [skipWs_append hsw₁]
          cases t₁ with
          | nil => exact absurd rfl hne₁
          | cons b t₁ => exact skipWs_cons (skipWs_eq_cons ht₁) _
        have hskip₂ : skipWs (s₂ ++ (t₂ ++ r')) = t₂ ++ r' := by
          rw [skipWs_append hsw₂]
          cases t₂ with
          | nil => simp at hlen₂
          | cons b t₂ => exact skipWs_cons (skipWs_eq_cons ht₂) _
        refine collect_cons (hext₀ _ _ hw'' ?_) (hext₁ _ _ hskip₁ ?_) (hext₂ m _ _ hm' hskip₂)
        · rw [hs₁, ht₁]
          cases t₁ with
          | nil => exact absurd rfl hne₁
          | cons b t₁ => cases s₁ <;> rfl
        · -- what follows an item is whitespace, a comma or the closing bracket
          have hh : (skipWs (s₂ ++ (t₂ ++ r'))).head? = t₂.head? := by
            rw [hskip₂]
            cases t₂ with
            | nil => simp at hlen₂
            | cons b t₂ => rfl
          rcases hhead₂ rfl with h₂ | h₂
          · exact follow_of_head (hh.trans h₂) (by decide)
          · exact follow_of_head (hh.trans h₂) hclose

/-- Fuel for every item is fuel enough. -/
theorem collect_fuel (ho : Opens opens) (hv : Reads value)
    (hclose : continuesNumber close = false) {n : Nat} {first : Bool} {w r : Bytes}
    {xs : List (κ × α)} (h : collect (nextItem close opens) close value n first w = some (xs, r)) :
    collect (nextItem close opens) close value (w.length + 1) first w = some (xs, r) := by
  obtain ⟨t, ht, hlen, -, hext⟩ := collect_reads ho hv hclose h
  refine hext _ w r ?_ ht
  have hw := congrArg List.length ht
  have hskip := skipWs_length_le w
  rw [List.length_append] at hw
  omega

theorem memberValue_reads (hv : Reads value) : Reads (memberValue value) := by
  intro w x r h
  obtain ⟨r₀, hp, hx⟩ := Option.bind_eq_some_iff.1 h
  obtain ⟨hw, hext⟩ := punct_reads hp
  obtain ⟨t, hne, ht, hext'⟩ := hv _ _ _ hx
  obtain ⟨s, hs, hsw⟩ := exists_skipWs r₀
  refine ⟨Byte.colon :: (s ++ t), by simp, by rw [hw, hs, ht]; simp, fun w' r' hw' hr' => ?_⟩
  have hskip : skipWs (s ++ t ++ r') = t ++ r' := by
    rw [List.append_assoc, skipWs_append hsw]
    cases t with
    | nil => exact absurd rfl hne
    | cons b t => exact skipWs_cons (skipWs_eq_cons ht) _
  rw [memberValue, hext _ _ hw', Option.bind_some]
  exact hext' _ _ hskip hr'

end Reads

/-! ## Values -/

variable {inRange : Bytes → Bool}

/-- The three ways to read a value. -/
theorem readValue_cases {d : Nat} {w r : Bytes} {j : Json}
    (h : readValue inRange (d + 1) w = some (j, r)) :
    (∃ t, token w = some (t, r) ∧ t.scalar inRange = some j) ∨
    (d ≠ 0 ∧ ∃ r₀ xs, token w = some (.openArray, r₀) ∧
      elements (readValue inRange d) r₀ = some (xs, r) ∧ j = .array (xs.map (·.2))) ∨
    (d ≠ 0 ∧ ∃ r₀ ms, token w = some (.openObject, r₀) ∧
      members (readValue inRange d) r₀ = some (ms, r) ∧ j = .object ms) := by
  rw [readValue.eq_def] at h
  simp only at h
  split at h
  · cases h
  · rename_i r₀ ht
    simp only [Option.ite_none_left_eq_some, Option.map_eq_some_iff, Prod.exists,
      Prod.mk.injEq] at h
    obtain ⟨hd, xs, r', he, rfl, rfl⟩ := h
    exact .inr (.inl ⟨hd, r₀, xs, ht, he, rfl⟩)
  · rename_i r₀ ht
    simp only [Option.ite_none_left_eq_some, Option.map_eq_some_iff, Prod.exists,
      Prod.mk.injEq] at h
    obtain ⟨hd, ms, r', hm, rfl, rfl⟩ := h
    exact .inr (.inr ⟨hd, r₀, ms, ht, hm, rfl⟩)
  · rename_i t r₀ _ _ ht
    simp only [Option.map_eq_some_iff, Prod.mk.injEq] at h
    obtain ⟨j', hj, rfl, rfl⟩ := h
    exact .inl ⟨t, ht, hj⟩

theorem readValue_scalar {d : Nat} {w r : Bytes} {j : Json} {t : Token}
    (ht : token w = some (t, r)) (hj : t.scalar inRange = some j) :
    readValue inRange (d + 1) w = some (j, r) := by
  cases t <;> simp_all [readValue, Token.scalar]

theorem readValue_array {d : Nat} {w r₀ r : Bytes} {xs : List (Unit × Json)} (hd : d ≠ 0)
    (ht : token w = some (.openArray, r₀))
    (he : elements (readValue inRange d) r₀ = some (xs, r)) :
    readValue inRange (d + 1) w = some (.array (xs.map (·.2)), r) := by
  simp [readValue, ht, hd, he]

theorem readValue_object {d : Nat} {w r₀ r : Bytes} {ms : List (String × Json)} (hd : d ≠ 0)
    (ht : token w = some (.openObject, r₀))
    (hm : members (readValue inRange d) r₀ = some (ms, r)) :
    readValue inRange (d + 1) w = some (.object ms, r) := by
  simp [readValue, ht, hd, hm]

theorem numberVisit_ne {lit : Bytes} {v : Visit} (h : numberVisit inRange lit = some v) :
    v ≠ .seq ∧ v ≠ .map := by
  cases lit with
  | nil =>
    simp only [numberVisit, Option.ite_none_right_eq_some, Option.some.injEq] at h
    simp [← h.2]
  | cons b ds =>
    simp only [numberVisit] at h
    split_ifs at h <;> cases h <;> simp

/-- The readings of a value, by the visitor method its front calls for. -/
theorem readValue_of_visit (inRange : Bytes → Bool) (d : Nat) (w : Bytes) :
    match visit inRange w with
    | none => readValue inRange (d + 1) w = none
    | some (.seq, r) => readValue inRange (d + 1) w =
        if d = 0 then none
        else (elements (readValue inRange d) r).map fun (xs, r') => (.array (xs.map (·.2)), r')
    | some (.map, r) => readValue inRange (d + 1) w =
        if d = 0 then none
        else (members (readValue inRange d) r).map fun (ms, r') => (.object ms, r')
    | some (_, r) => ∃ j, readValue inRange (d + 1) w = some (j, r) := by
  unfold visit
  rw [readValue.eq_def]
  simp only
  rcases token w with _ | ⟨t, r⟩
  · rfl
  · cases t with
    | null => exact ⟨_, rfl⟩
    | bool b => exact ⟨_, rfl⟩
    | string s => exact ⟨_, rfl⟩
    | openArray => rfl
    | openObject => rfl
    | number lit =>
      simp only [Option.bind_some, Token.visit, Token.scalar]
      cases hv : numberVisit inRange lit with
      | none => rfl
      | some v =>
        obtain ⟨hseq, hmap⟩ := numberVisit_ne hv
        cases v with
        | seq => exact absurd rfl hseq
        | map => exact absurd rfl hmap
        | _ => exact ⟨_, rfl⟩

/-- A collection read after its opening bracket depends on its own text only. -/
theorem collect_reads_all {close : UInt8} {opens : Bytes → Option (κ × Bytes)}
    {value : Bytes → Option (α × Bytes)} (ho : Opens opens) (hv : Reads value)
    (hclose : continuesNumber close = false) {w r : Bytes} {xs : List (κ × α)}
    (h : collect (nextItem close opens) close value (w.length + 1) true w = some (xs, r)) :
    ∃ t, w = t ++ r ∧ ∀ r', collect (nextItem close opens) close value ((t ++ r').length + 1)
      true (t ++ r') = some (xs, r') := by
  obtain ⟨t, ht, hlen, -, hext⟩ := collect_reads ho hv hclose h
  obtain ⟨s, hs, hsw⟩ := exists_skipWs w
  refine ⟨s ++ t, by rw [hs, ht, List.append_assoc], fun r' => hext _ _ r' ?_ ?_⟩
  · simp only [List.length_append]; omega
  · rw [List.append_assoc, skipWs_append hsw]
    cases t with
    | nil => simp at hlen
    | cons b t => exact skipWs_cons (skipWs_eq_cons ht) _

/-- **A value depends on its own text only.** -/
theorem readValue_reads (d : Nat) : Reads (readValue inRange d) := by
  induction d with
  | zero =>
    intro w j r h
    cases h
  | succ d ih =>
    intro w j r h
    rcases readValue_cases h with ⟨t, ht, hj⟩ | ⟨hd, r₀, xs, ht, he, rfl⟩ |
      ⟨hd, r₀, ms, ht, hm, rfl⟩
    · obtain ⟨u, hne, hu, hext⟩ := token_reads _ _ _ ht
      exact ⟨u, hne, hu, fun w' r' hw' hr' => readValue_scalar (hext w' r' hw' hr') hj⟩
    · obtain ⟨u, rfl, hext⟩ := collect_reads_all openElement_opens ih (by decide) he
      refine ⟨Byte.lbracket :: u, by simp, token_openArray_iff.1 ht, ?_⟩
      intro w' r' hw' _
      exact readValue_array hd (token_openArray_iff.2 hw') (hext r')
    · obtain ⟨u, rfl, hext⟩ := collect_reads_all openKey_opens (memberValue_reads ih)
        (by decide) hm
      refine ⟨Byte.lbrace :: u, by simp, token_openObject_iff.1 ht, ?_⟩
      intro w' r' hw' _
      exact readValue_object hd (token_openObject_iff.2 hw') (hext r')

/-! ## The nesting budget -/

theorem memberValue_eq_some {value : Bytes → Option (α × Bytes)} {w r : Bytes} {x : α} :
    memberValue value w = some (x, r) ↔
      ∃ r₀, punct Byte.colon w = some r₀ ∧ value r₀ = some (x, r) := by
  simp [memberValue, Option.bind_eq_some_iff]

theorem readValue_nesting : ∀ {d : Nat} {w r : Bytes} {j : Json},
    readValue inRange d w = some (j, r) → j.nesting < d := by
  intro d
  induction d with
  | zero =>
    intro w r j h
    cases h
  | succ d ih =>
    intro w r j h
    rcases readValue_cases h with ⟨t, -, hj⟩ | ⟨hd, r₀, xs, -, he, rfl⟩ |
      ⟨hd, r₀, ms, -, hm, rfl⟩
    · cases t <;> simp only [Token.scalar, reduceCtorEq, Option.some.injEq,
        Option.ite_none_right_eq_some] at hj
      · subst hj; simp [nesting]
      · subst hj; simp [nesting]
      · obtain ⟨-, rfl⟩ := hj; simp [nesting]
      · subst hj; simp [nesting]
    · have hlt := collect_forall (P := fun x => x.nesting < d) (fun _ _ _ h => ih h) he
      simp only [nesting, Nat.add_lt_add_iff_right]
      refine (nestingElements_lt (Nat.pos_of_ne_zero hd)).2 fun x hx => ?_
      obtain ⟨y, hy, rfl⟩ := List.mem_map.1 hx
      exact hlt y hy
    · have hlt := collect_forall (P := fun x => x.nesting < d) (fun _ _ _ h => by
        obtain ⟨_, -, hv⟩ := memberValue_eq_some.1 h
        exact ih hv) hm
      simp only [nesting, Nat.add_lt_add_iff_right]
      exact (nestingMembers_lt (Nat.pos_of_ne_zero hd)).2 hlt

/-- What has been read is read with every budget above its nesting. -/
theorem readValue_budget : ∀ {d d' : Nat} {w r : Bytes} {j : Json},
    readValue inRange d w = some (j, r) → j.nesting < d' →
      readValue inRange d' w = some (j, r) := by
  intro d
  induction d with
  | zero =>
    intro d' w r j h
    cases h
  | succ d ih =>
    intro d' w r j h hlt
    obtain ⟨d', rfl⟩ : ∃ d₀, d' = d₀ + 1 := ⟨d' - 1, by omega⟩
    rcases readValue_cases h with ⟨t, ht, hj⟩ | ⟨hd, r₀, xs, ht, he, rfl⟩ |
      ⟨hd, r₀, ms, ht, hm, rfl⟩
    · exact readValue_scalar ht hj
    · simp only [nesting, Nat.add_lt_add_iff_right] at hlt
      have hd' : 0 < d' := Nat.lt_of_le_of_lt (Nat.zero_le _) hlt
      refine readValue_array (Nat.pos_iff_ne_zero.1 hd') ht
        (collect_congr (fun x hx w r hv => ?_) he)
      exact ih hv
        ((nestingElements_lt hd').1 hlt _ (List.mem_map_of_mem (f := (·.2)) hx))
    · simp only [nesting, Nat.add_lt_add_iff_right] at hlt
      have hd' : 0 < d' := Nat.lt_of_le_of_lt (Nat.zero_le _) hlt
      refine readValue_object (Nat.pos_iff_ne_zero.1 hd') ht
        (collect_congr (fun x hx w r hv => ?_) hm)
      obtain ⟨r₁, hp, hv⟩ := memberValue_eq_some.1 hv
      exact memberValue_eq_some.2
        ⟨r₁, hp, ih hv ((nestingMembers_lt hd').1 hlt _ hx)⟩

/-- **The budget is used for nothing but refusing what nests too deep.** -/
theorem readValue_iff_nesting {d d' : Nat} (hle : d ≤ d') {w r : Bytes} {j : Json} :
    readValue inRange d w = some (j, r) ↔ readValue inRange d' w = some (j, r) ∧ j.nesting < d :=
  ⟨fun h => ⟨readValue_budget h (Nat.lt_of_lt_of_le (readValue_nesting h) hle),
    readValue_nesting h⟩, fun h => readValue_budget h.1 h.2⟩

/-- Two budgets never read two different values. -/
theorem readValue_unique {d d' : Nat} {w r r' : Bytes} {j j' : Json}
    (h : readValue inRange d w = some (j, r)) (h' : readValue inRange d' w = some (j', r')) :
    j = j' ∧ r = r' := by
  have hmax := ((readValue_iff_nesting (Nat.le_max_left d d')).1 h).1
  rw [((readValue_iff_nesting (Nat.le_max_right d d')).1 h').1] at hmax
  cases hmax
  exact ⟨rfl, rfl⟩

/-- The text of a value, by itself, is read as that value. -/
theorem readValue_text {d : Nat} {w t r : Bytes} {j : Json}
    (h : readValue inRange d w = some (j, r)) (ht : skipWs w = t ++ r) :
    readValue inRange d t = some (j, []) := by
  obtain ⟨t', hne, ht', hext⟩ := readValue_reads d w j r h
  obtain rfl : t = t' := List.append_cancel_right (ht.symm.trans ht')
  refine hext t [] ?_ follow_nil
  rw [List.append_nil]
  cases t with
  | nil => exact absurd rfl hne
  | cons b t => exact skipWs_cons (skipWs_eq_cons ht) t

/-! ## The members of the root -/

/-- A value read, between the input it was read from and what followed it. -/
structure Located (α : Type) where
  before : Bytes
  value : α
  after : Bytes

/-- The source text of the value, without the whitespace before it. -/
def Located.text (l : Located α) : Bytes :=
  (skipWs l.before).take ((skipWs l.before).length - l.after.length)

theorem Located.text_eq {l : Located α} {t : Bytes} (h : skipWs l.before = t ++ l.after) :
    l.text = t := by
  rw [text, h, List.length_append, Nat.add_sub_cancel]
  exact List.take_left

def locate (value : Bytes → Option (α × Bytes)) (w : Bytes) : Option (Located α × Bytes) :=
  (value w).map fun (x, r) => (⟨w, x, r⟩, r)

theorem locate_eq_some {value : Bytes → Option (α × Bytes)} {w r : Bytes} {l : Located α} :
    locate value w = some (l, r) ↔ value w = some (l.value, l.after) ∧ l.before = w ∧
      l.after = r := by
  unfold locate
  constructor
  · intro h
    obtain ⟨⟨x, r'⟩, hx, heq⟩ := Option.map_eq_some_iff.1 h
    cases heq
    exact ⟨hx, rfl, rfl⟩
  · rintro ⟨hx, rfl, rfl⟩
    rw [hx]
    rfl

/-- The members of the object at the root of a document, in order. -/
def readMembers (inRange : Bytes → Bool) (bytes : Bytes) : Option (List (String × Located Json)) :=
  match token bytes with
  | some (.openObject, r) =>
    (members (locate (readValue inRange (recursionLimit - 1))) r).bind fun (ms, r') =>
      if skipWs r' = [] then some ms else none
  | _ => none

theorem document_of_openObject {bytes r : Bytes} (h : token bytes = some (.openObject, r)) :
    document inRange bytes = (members (readValue inRange (recursionLimit - 1)) r).bind
      fun (ms, r') => if skipWs r' = [] then some (.object ms) else none := by
  unfold document
  rw [show recursionLimit = (recursionLimit - 1) + 1 from rfl, readValue.eq_def]
  simp only [h, Nat.add_sub_cancel]
  rw [if_neg (by decide)]
  cases members (readValue inRange (recursionLimit - 1)) r <;> rfl

/-- Members read with their places are the members read. -/
theorem collect_locate (next : Bool → Bytes → Option (Option κ × Bytes)) (close : UInt8)
    (value : Bytes → Option (α × Bytes)) (n : Nat) (first : Bool) (w : Bytes) :
    collect next close (memberValue value) n first w =
      (collect next close (memberValue (locate value)) n first w).map
        fun (ms, r) => (ms.map fun (k, l) => (k, l.value), r) := by
  refine collect_map Located.value (fun w => ?_) _ _ _
  unfold memberValue
  cases punct Byte.colon w with
  | none => rfl
  | some r =>
    simp only [Option.bind_some, locate]
    cases value r <;> rfl

theorem members_locate (value : Bytes → Option (α × Bytes)) (w : Bytes) :
    members value w =
      (members (locate value) w).map fun (ms, r) => (ms.map fun (k, l) => (k, l.value), r) :=
  collect_locate _ _ _ _ _ _

/-- A document is an object exactly when its members can be read. -/
theorem document_object_iff {bytes : Bytes} {ms : List (String × Json)} :
    document inRange bytes = some (.object ms) ↔
      ∃ ls, readMembers inRange bytes = some ls ∧ ms = ls.map fun (k, l) => (k, l.value) := by
  have hlim : recursionLimit = 127 + 1 := rfl
  unfold document readMembers
  constructor
  · intro h
    obtain ⟨⟨j, r⟩, hj, hr⟩ := Option.bind_eq_some_iff.1 h
    simp only [Option.ite_none_right_eq_some, Option.some.injEq] at hr
    obtain ⟨hr, rfl⟩ := hr
    rw [hlim] at hj
    rcases readValue_cases hj with ⟨t, -, hj⟩ | ⟨-, r₀, xs, -, -, hj⟩ | ⟨-, r₀, ms', ht, hm, hj⟩
    · cases t <;> simp [Token.scalar] at hj
    · cases hj
    · cases hj
      rw [members_locate] at hm
      obtain ⟨⟨ls, r'⟩, hls, heq⟩ := Option.map_eq_some_iff.1 hm
      cases heq
      refine ⟨ls, ?_, rfl⟩
      simp only [ht]
      rw [show recursionLimit - 1 = 127 from rfl, hls, Option.bind_some, if_pos hr]
  · rintro ⟨ls, h, rfl⟩
    split at h
    · rename_i r ht
      obtain ⟨⟨ls', r'⟩, hls, hr⟩ := Option.bind_eq_some_iff.1 h
      simp only [Option.ite_none_right_eq_some, Option.some.injEq] at hr
      obtain ⟨hr, rfl⟩ := hr
      rw [hlim, readValue_object (r := r') (by decide) ht (by
        rw [members_locate]; exact Option.map_eq_some_iff.2 ⟨_, hls, rfl⟩)]
      simp [hr]
    · cases h

theorem readMembers_eq_some {bytes : Bytes} {ls : List (String × Located Json)} :
    readMembers inRange bytes = some ls ↔ ∃ r r', token bytes = some (.openObject, r) ∧
      members (locate (readValue inRange (recursionLimit - 1))) r = some (ls, r') ∧
        skipWs r' = [] := by
  unfold readMembers
  constructor
  · intro h
    split at h
    · rename_i r ht
      obtain ⟨⟨ls', r'⟩, hls, hr⟩ := Option.bind_eq_some_iff.1 h
      simp only [Option.ite_none_right_eq_some, Option.some.injEq] at hr
      obtain ⟨hr, rfl⟩ := hr
      exact ⟨r, r', ht, hls, hr⟩
    · cases h
  · rintro ⟨r, r', ht, hls, hr⟩
    simp [ht, hls, hr]

/-- The value of a member is read where it is. -/
theorem readMembers_value {bytes : Bytes} {ls : List (String × Located Json)}
    (h : readMembers inRange bytes = some ls) {m : String × Located Json} (hm : m ∈ ls) :
    readValue inRange (recursionLimit - 1) m.2.before = some (m.2.value, m.2.after) := by
  obtain ⟨r, r', -, hls, -⟩ := readMembers_eq_some.1 h
  refine collect_forall (P := fun l => readValue inRange (recursionLimit - 1) l.before =
    some (l.value, l.after)) (fun w l r hl => ?_) hls m hm
  obtain ⟨rb, -, hloc⟩ := memberValue_eq_some.1 hl
  obtain ⟨hx, rfl, -⟩ := locate_eq_some.1 hloc
  exact hx

end Json
