import Mathlib.Data.List.Chain
import Mathlib.Tactic.Common

/-!
# Fallible computations that may panic

`Exec ε α` is the outcome of a program that returns a value, returns an error, or panics.
Loops are modelled with explicit fuel; a loop that runs out of it is `hang`, an outcome of
its own, so that termination is something to prove and not something the model assumes.

* `loop_rule` — the total-correctness rule: an invariant and a decreasing measure.
* `loop_of_le` — fuel that is enough is as good as more.
* `loop_map` — two loops in step come to the same.
* `Returns` — a computation agrees with an `Option`-valued reading of it: a value where the
  reading has one, some error where it has none, and never a panic or a hang.
* `loopTrace` — the states a loop body is run on, in order: each is what the turn before left
  (`loopTrace_isChain`), and the last turn gives the outcome (`loopTrace_exit`).
-/

set_option autoImplicit false

universe u v w

/-- What a computation comes to. -/
inductive Exec (ε : Type u) (α : Type v) : Type (max u v) where
  | ok (a : α)
  | err (e : ε)
  | panics (message : String)
  | hang
  deriving DecidableEq

namespace Exec

variable {ε : Type u} {ε' : Type u} {α β : Type v}

/-- Sequencing: the first outcome that is not a value is the outcome. -/
protected def bind (x : Exec ε α) (f : α → Exec ε β) : Exec ε β :=
  match x with
  | .ok a => f a
  | .err e => .err e
  | .panics m => .panics m
  | .hang => .hang

instance : Monad (Exec ε) where
  pure := .ok
  bind := Exec.bind

@[simp] theorem pure_eq (a : α) : (pure a : Exec ε α) = .ok a := rfl
@[simp] theorem ok_bind (a : α) (f : α → Exec ε β) : (Exec.ok a >>= f) = f a := rfl
@[simp] theorem err_bind (e : ε) (f : α → Exec ε β) : ((.err e : Exec ε α) >>= f) = .err e := rfl
@[simp] theorem panics_bind (m : String) (f : α → Exec ε β) :
    ((.panics m : Exec ε α) >>= f) = .panics m := rfl
@[simp] theorem hang_bind (f : α → Exec ε β) : ((.hang : Exec ε α) >>= f) = .hang := rfl

instance : LawfulMonad (Exec ε) :=
  LawfulMonad.mk' (Exec ε) (by intro α x; cases x <;> rfl) (by intros; rfl)
    (by intro α β γ x f g; cases x <;> rfl)

@[simp] theorem map_ok (f : α → β) (a : α) : f <$> (.ok a : Exec ε α) = .ok (f a) := rfl
@[simp] theorem map_err (f : α → β) (e : ε) : f <$> (.err e : Exec ε α) = .err e := rfl
@[simp] theorem map_panics (f : α → β) (m : String) :
    f <$> (.panics m : Exec ε α) = .panics m := rfl
@[simp] theorem map_hang (f : α → β) : f <$> (.hang : Exec ε α) = .hang := rfl

theorem bind_eq_ok {x : Exec ε α} {f : α → Exec ε β} {b : β} :
    (x >>= f) = .ok b ↔ ∃ a, x = .ok a ∧ f a = .ok b := by
  cases x <;> simp

/-- `Result::map_err`. -/
def mapErr (f : ε → ε') : Exec ε α → Exec ε' α
  | .ok a => .ok a
  | .err e => .err (f e)
  | .panics m => .panics m
  | .hang => .hang

@[simp] theorem mapErr_ok (f : ε → ε') (a : α) : mapErr f (.ok a : Exec ε α) = .ok a := rfl
@[simp] theorem mapErr_err (f : ε → ε') (e : ε) :
    mapErr f (.err e : Exec ε α) = .err (f e) := rfl
@[simp] theorem mapErr_panics (f : ε → ε') (m : String) :
    mapErr f (.panics m : Exec ε α) = .panics m := rfl
@[simp] theorem mapErr_hang (f : ε → ε') : mapErr f (.hang : Exec ε α) = .hang := rfl

theorem mapErr_eq_ok {f : ε → ε'} {x : Exec ε α} {a : α} : mapErr f x = .ok a ↔ x = .ok a := by
  cases x <;> simp [mapErr]

theorem mapErr_eq_panics {f : ε → ε'} {x : Exec ε α} {m : String} :
    mapErr f x = .panics m ↔ x = .panics m := by
  cases x <;> simp [mapErr]

/-- A call that cannot panic. -/
def lift : Except ε α → Exec ε α
  | .ok a => .ok a
  | .error e => .err e

@[simp] theorem lift_ok (a : α) : lift (.ok a : Except ε α) = .ok a := rfl
@[simp] theorem lift_error (e : ε) : lift (.error e : Except ε α) = .err e := rfl

theorem lift_eq_ok {x : Except ε α} {a : α} : lift x = .ok a ↔ x = .ok a := by
  cases x <;> simp [lift]

theorem lift_eq_err {x : Except ε α} {e : ε} : lift x = .err e ↔ x = .error e := by
  cases x <;> simp [lift]

theorem toOption_map (f : α → β) (x : Except ε α) :
    (x.map f).toOption = x.toOption.map f := by
  cases x <;> rfl

/-- `Option::expect`. -/
def expect (o : Option α) (message : String) : Exec ε α :=
  match o with
  | some a => .ok a
  | none => .panics message

@[simp] theorem expect_some (a : α) (m : String) : expect (ε := ε) (some a) m = .ok a := rfl

/-- Indexing a slice. -/
def index (xs : List α) (i : Nat) : Exec ε α := expect xs[i]? "index out of bounds"

theorem index_of_lt {xs : List α} {i : Nat} (h : i < xs.length) :
    (index xs i : Exec ε α) = .ok xs[i] := by
  rw [index, List.getElem?_eq_getElem h, expect_some]

/-- Subtraction in `usize`. -/
def checkedSub (a b : Nat) : Exec ε Nat :=
  if b ≤ a then .ok (a - b) else .panics "attempt to subtract with overflow"

theorem checkedSub_of_le {a b : Nat} (h : b ≤ a) : (checkedSub a b : Exec ε Nat) = .ok (a - b) :=
  if_pos h

/-- Returns a value or an error: no panic, no hang. -/
def Settles : Exec ε α → Prop
  | .ok _ => True
  | .err _ => True
  | .panics _ => False
  | .hang => False

@[simp] theorem settles_lift (x : Except ε α) : Settles (lift x) := by cases x <;> trivial

theorem Settles.cases {x : Exec ε α} (h : Settles x) : (∃ a, x = .ok a) ∨ ∃ e, x = .err e := by
  cases x with
  | ok a => exact .inl ⟨a, rfl⟩
  | err e => exact .inr ⟨e, rfl⟩
  | panics m => exact h.elim
  | hang => exact h.elim

theorem Settles.map {x : Exec ε α} (f : α → β) (h : Settles x) : Settles (f <$> x) := by
  rcases h.cases with ⟨a, rfl⟩ | ⟨e, rfl⟩ <;> trivial

theorem lift_ne_panics (x : Except ε α) (m : String) : lift x ≠ .panics m := by
  cases x <;> simp [lift]

/-- What is run after a computation that does not panic is what panics. -/
theorem bind_eq_panics {x : Exec ε α} {f : α → Exec ε β} {m : String}
    (h : (x >>= f) = .panics m) : x = .panics m ∨ ∃ a, x = .ok a ∧ f a = .panics m := by
  cases x with
  | ok a => exact .inr ⟨a, rfl, h⟩
  | err e => cases h
  | panics m' => cases h; exact .inl rfl
  | hang => cases h

/-! ## Loops -/

/-- What one turn of a loop decides: go round again, or leave with a value. -/
inductive Flow (σ : Type w) (α : Type v) : Type (max w v) where
  | next (s : σ)
  | done (a : α)
  deriving DecidableEq

variable {σ : Type v}

/-- A loop with fuel: `body` is run until it leaves. -/
def loop (body : σ → Exec ε (Flow σ α)) : Nat → σ → Exec ε α
  | 0, _ => .hang
  | n + 1, s =>
    match body s with
    | .ok (.next s') => loop body n s'
    | .ok (.done a) => .ok a
    | .err e => .err e
    | .panics m => .panics m
    | .hang => .hang

theorem loop_next {body : σ → Exec ε (Flow σ α)} {n : Nat} {s s' : σ}
    (h : body s = .ok (.next s')) : loop body (n + 1) s = loop body n s' := by
  rw [loop, h]

theorem loop_done {body : σ → Exec ε (Flow σ α)} {n : Nat} {s : σ} {a : α}
    (h : body s = .ok (.done a)) : loop body (n + 1) s = .ok a := by
  rw [loop, h]

theorem loop_err {body : σ → Exec ε (Flow σ α)} {n : Nat} {s : σ} {e : ε}
    (h : body s = .err e) : loop body (n + 1) s = .err e := by
  rw [loop, h]

theorem loop_panics {body : σ → Exec ε (Flow σ α)} {n : Nat} {s : σ} {m : String}
    (h : body s = .panics m) : loop body (n + 1) s = .panics m := by
  rw [loop, h]

/-- **A loop that has ended does so with more fuel too.** -/
theorem loop_of_le {body : σ → Exec ε (Flow σ α)} : ∀ {n m : Nat} {s : σ},
    loop body n s ≠ .hang → n ≤ m → loop body m s = loop body n s := by
  intro n
  induction n with
  | zero =>
    intro m s h _
    exact absurd rfl h
  | succ n ih =>
    intro m s h hle
    obtain ⟨m, rfl⟩ : ∃ m', m = m' + 1 := ⟨m - 1, by omega⟩
    unfold loop at h ⊢
    cases hb : body s with
    | ok flow =>
      rw [hb] at h
      cases flow with
      | next s' => exact ih h (by omega)
      | done a => rfl
    | err e => rfl
    | panics m' => rfl
    | hang => rfl

/-- The states `loop` runs `body` on, in order. -/
def loopTrace (body : σ → Exec ε (Flow σ α)) : Nat → σ → List σ
  | 0, _ => []
  | n + 1, s =>
    s :: match body s with
      | .ok (.next s') => loopTrace body n s'
      | _ => []

/-- **Invariant and measure.**  If every turn from a state with `I` either leaves with an
    outcome in `Q` or restores `I` at a smaller measure, the loop's outcome is in `Q`. -/
theorem loop_rule {body : σ → Exec ε (Flow σ α)} {I : σ → Prop} {μ : σ → Nat}
    {Q : Exec ε α → Prop}
    (hstep : ∀ s, I s → match body s with
      | .ok (.next s') => I s' ∧ μ s' < μ s
      | .ok (.done a) => Q (.ok a)
      | .err e => Q (.err e)
      | .panics m => Q (.panics m)
      | .hang => Q .hang) :
    ∀ (n : Nat) (s : σ), I s → μ s < n → Q (loop body n s) := by
  intro n
  induction n with
  | zero =>
    intro s _ h
    exact absurd h (Nat.not_lt_zero _)
  | succ n ih =>
    intro s hI h
    have hs := hstep s hI
    unfold loop
    cases hb : body s with
    | ok f =>
      rw [hb] at hs
      cases f with
      | next s' =>
        obtain ⟨hI', hlt⟩ := hs
        exact ih s' hI' (by omega)
      | done a => exact hs
    | err e => rw [hb] at hs; exact hs
    | panics m => rw [hb] at hs; exact hs
    | hang => rw [hb] at hs; exact hs

/-- A turn of one loop, seen as a turn of another. -/
def Flow.map {σ' : Type w} {σ : Type w} (π : σ → σ') (f : α → β) : Flow σ α → Flow σ' β
  | .next s => .next (π s)
  | .done a => .done (f a)

/-- **Two loops in step.**  If, from the states with `I`, each turn of one loop is the image of a
    turn of the other, then so is the outcome. -/
theorem loop_map {σ' : Type v} {body : σ → Exec ε (Flow σ α)} {body' : σ' → Exec ε (Flow σ' β)}
    (π : σ → σ') (f : α → β) {I : σ → Prop}
    (hbody : ∀ s, I s → body' (π s) = Flow.map π f <$> body s)
    (hinv : ∀ s s', I s → body s = .ok (.next s') → I s') :
    ∀ (n : Nat) (s : σ), I s → loop body' n (π s) = f <$> loop body n s := by
  intro n
  induction n with
  | zero =>
    intro s _
    rfl
  | succ n ih =>
    intro s hI
    have hs := hbody s hI
    unfold loop
    cases hb : body s with
    | ok flow =>
      rw [hb] at hs
      cases flow with
      | next s' =>
        rw [hs]
        exact ih s' (hinv s s' hI hb)
      | done a => rw [hs]; rfl
    | err e => rw [hb] at hs; rw [hs]; rfl
    | panics m => rw [hb] at hs; rw [hs]; rfl
    | hang => rw [hb] at hs; rw [hs]; rfl

/-- A loop panics in one of its turns only. -/
theorem loop_ne_panics {body : σ → Exec ε (Flow σ α)} {m : String}
    (hbody : ∀ s, body s ≠ .panics m) : ∀ (n : Nat) (s : σ), loop body n s ≠ .panics m := by
  intro n
  induction n with
  | zero =>
    intro s h
    cases h
  | succ n ih =>
    intro s h
    unfold loop at h
    cases hb : body s with
    | ok flow =>
      rw [hb] at h
      cases flow with
      | next s' => exact ih s' h
      | done a => cases h
    | err e => rw [hb] at h; cases h
    | panics m' => rw [hb] at h; cases h; exact hbody s hb
    | hang => rw [hb] at h; cases h

/-- How a turn leaves its loop, if it does. -/
def exit : Exec ε (Flow σ α) → Option (Exec ε α)
  | .ok (.next _) => none
  | .ok (.done a) => some (.ok a)
  | .err e => some (.err e)
  | .panics m => some (.panics m)
  | .hang => some .hang

theorem loopTrace_head {body : σ → Exec ε (Flow σ α)} (n : Nat) (s : σ) :
    (loopTrace body (n + 1) s).head? = some s := by
  unfold loopTrace; rfl

/-- **Each state of the trace is what the turn before it left.** -/
theorem loopTrace_isChain (body : σ → Exec ε (Flow σ α)) : ∀ (n : Nat) (s : σ),
    (loopTrace body n s).IsChain fun a b => body a = .ok (.next b) := by
  intro n
  induction n with
  | zero =>
    intro s
    exact .nil
  | succ n ih =>
    intro s
    unfold loopTrace
    cases hb : body s with
    | ok f =>
      cases f with
      | next s' =>
        refine List.isChain_cons.2 ⟨?_, ih s'⟩
        intro b hb'
        cases n with
        | zero => cases hb'
        | succ n => rw [loopTrace_head] at hb'; cases hb'; exact hb
      | done a => exact .singleton _
    | err e => exact .singleton _
    | panics m => exact .singleton _
    | hang => exact .singleton _

/-- What every turn preserves holds of every state of the trace. -/
theorem loopTrace_forall (body : σ → Exec ε (Flow σ α)) {I : σ → Prop}
    (hstep : ∀ s s', I s → body s = .ok (.next s') → I s') :
    ∀ (n : Nat) {s : σ}, I s → ∀ s' ∈ loopTrace body n s, I s' := by
  intro n
  induction n with
  | zero =>
    intro s _ s' h
    cases h
  | succ n ih =>
    intro s hI s' h
    unfold loopTrace at h
    rcases List.mem_cons.1 h with rfl | h
    · exact hI
    · split at h
      · rename_i s₁ hb
        exact ih (hstep s s₁ hI hb) s' h
      · cases h

/-- **The last turn gives the outcome** of a loop that had fuel enough. -/
theorem loopTrace_exit {body : σ → Exec ε (Flow σ α)} : ∀ {n : Nat} {s : σ},
    loop body n s ≠ .hang →
      ∃ last, (loopTrace body n s).getLast? = some last ∧
        exit (body last) = some (loop body n s) := by
  intro n
  induction n with
  | zero =>
    intro s h
    exact absurd rfl h
  | succ n ih =>
    intro s h
    unfold loop at h ⊢
    unfold loopTrace
    cases hb : body s with
    | ok f =>
      cases f with
      | next s' =>
        rw [hb] at h
        obtain ⟨last, hlast, hexit⟩ := ih h
        refine ⟨last, ?_, hexit⟩
        simp only [List.getLast?_cons, hlast, Option.getD_some]
      | done a => exact ⟨s, rfl, by rw [hb]; rfl⟩
    | err e => exact ⟨s, rfl, by rw [hb]; rfl⟩
    | panics m => exact ⟨s, rfl, by rw [hb]; rfl⟩
    | hang => rw [hb] at h; exact absurd rfl h

/-! ## Agreement with an `Option`-valued reading -/

/-- `x` returns what `o` reads, and returns an error when `o` reads nothing. -/
def Returns : Exec ε α → Option α → Prop
  | .ok a, o => o = some a
  | .err _, o => o = none
  | .panics _, _ => False
  | .hang, _ => False

@[simp] theorem returns_ok {a : α} {o : Option α} :
    Returns (.ok a : Exec ε α) o ↔ o = some a := Iff.rfl
@[simp] theorem returns_err {e : ε} {o : Option α} :
    Returns (.err e : Exec ε α) o ↔ o = none := Iff.rfl

theorem Returns.some {x : Exec ε α} {a : α} (h : Returns x (some a)) : x = .ok a := by
  cases x with
  | ok b => rw [Option.some.inj h]
  | err e => cases h
  | panics m => exact h.elim
  | hang => exact h.elim

theorem Returns.none {x : Exec ε α} (h : Returns x none) : ∃ e, x = .err e := by
  cases x with
  | ok b => cases h
  | err e => exact ⟨e, rfl⟩
  | panics m => exact h.elim
  | hang => exact h.elim

theorem returns_lift {x : Except ε α} {o : Option α} (h : x.toOption = o) :
    Returns (lift x) o := by
  subst h; cases x <;> rfl

theorem Returns.map {x : Exec ε α} {o : Option α} (f : α → β) (hx : Returns x o) :
    Returns (f <$> x) (o.map f) := by
  cases x with
  | ok a => obtain rfl : o = .some a := hx; rfl
  | err e => obtain rfl : o = .none := hx; rfl
  | panics m => exact hx.elim
  | hang => exact hx.elim

end Exec
