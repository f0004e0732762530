import Mathlib.Order.Fin.Basic
import Mathlib.Tactic.Common
import VersionedEnvelope.Declaration

/-!
# The tokens of a declaration

The arms of `version_set!` that take the body of the `enum` apart, one variant in each expansion.
The arms are tried in order; a type or an attribute that does not parse is an error, whatever arms
are left.  The arms nest: the entry arm, one `@munch` for each variant and one that ends them, and
`@emit`, each within the one before.

* `munchOne_eq_some_iff` — one expansion takes one variant, and a comma after it.
* `munch_eq_some_iff` — the expansions take a list of variants, with a comma after the last one or
  without, in one expansion each and two more.
* `expand_eq_some_iff` — so that what is accepted is a nonempty list of variants, written out, of
  three less than the expansions may nest.
* `Resolved` — what the compiler finds for the names and types of the variants, and the
  `Declaration` that it makes of them.
* `Resolved.accepted_iff` — whether that declaration compiles, read off the list of variants.
-/

set_option autoImplicit false

namespace VersionedEnvelope

/-! ## Tokens -/

inductive Delimiter where
  | parenthesis
  | bracket
  | brace
  deriving DecidableEq

inductive TokenTree where
  /-- An identifier or a keyword: `$x:ident` takes both.  Of what it takes, a keyword such as `try`
      is no name for a variant: it goes through these arms, and the compiler refuses the `enum` or
      the path that `@emit` makes of it. -/
  | ident (name : String)
  | comma
  | fatArrow
  | pound
  | other (text : String)
  | group (delimiter : Delimiter) (tokens : List TokenTree)

/-- What the compiler takes for a type and for an attribute: `$x:ty` and `$x:meta`. -/
structure Fragments where
  isTy : List TokenTree → Bool
  isMeta : List TokenTree → Bool

/-- The normalized step of a variant: `(try V2)`, `(next V2)`, `(done)`. -/
inductive NormalStep where
  | tryNext (target : String)
  | next (target : String)
  | done
  deriving DecidableEq

/-- A normalized variant: `{ [attrs] Variant (Type) (kind) }`. -/
structure NormalVariant where
  attrs : List (List TokenTree)
  var : String
  ty : List TokenTree
  kind : NormalStep

/-! ## The arms of `@munch` -/

/-- `$(, $($rest:tt)*)?`, at the end of each arm. -/
def optionalRest : List TokenTree → Option (List TokenTree)
  | [] => some []
  | .comma :: rest => some rest
  | _ => none

/-- What follows the type in the arm with `=> try $target:ident`. -/
def tryArm : List TokenTree → Option (NormalStep × List TokenTree)
  | .fatArrow :: .ident keyword :: .ident target :: rest =>
    if keyword = "try" then (optionalRest rest).map (.tryNext target, ·) else none
  | _ => none

/-- What follows the type in the arm with `=> $target:ident`. -/
def nextArm : List TokenTree → Option (NormalStep × List TokenTree)
  | .fatArrow :: .ident target :: rest => (optionalRest rest).map (.next target, ·)
  | _ => none

/-- What follows the type in the arm without a step. -/
def doneArm (tokens : List TokenTree) : Option (NormalStep × List TokenTree) :=
  (optionalRest tokens).map (.done, ·)

/-- The three arms, in order. -/
def stepArms (tokens : List TokenTree) : Option (NormalStep × List TokenTree) :=
  (tryArm tokens).or ((nextArm tokens).or (doneArm tokens))

namespace Fragments

variable (F : Fragments)

/-- `$(#[$vattr:meta])*`. -/
def attributes : List TokenTree → Option (List (List TokenTree) × List TokenTree)
  | .pound :: .group .bracket attr :: rest =>
    if F.isMeta attr then (attributes rest).map fun (attrs, rest) => (attr :: attrs, rest) else none
  | tokens => some ([], tokens)

/-- One variant: what the three arms have in common, and then the arms. -/
def munchOne (tokens : List TokenTree) : Option (NormalVariant × List TokenTree) :=
  match F.attributes tokens with
  | some (attrs, .ident var :: .group .parenthesis ty :: rest) =>
    if F.isTy ty then (stepArms rest).map fun (kind, rest) => (⟨attrs, var, ty, kind⟩, rest)
    else none
  | _ => none

/-- `@emit`, which takes at least one variant.  The number is of the nested expansions that are
    left: the compiler stops at its recursion limit. -/
def emit : Nat → List NormalVariant → Option (List NormalVariant)
  | 0, _ => none
  | _ + 1, [] => none
  | _ + 1, variant :: variants => some (variant :: variants)

/-- `@munch`, and `@emit` after the last variant. -/
def munch : Nat → List NormalVariant → List TokenTree → Option (List NormalVariant)
  | 0, _, _ => none
  | n + 1, acc, [] => emit n acc
  | n + 1, acc, tokens =>
    (F.munchOne tokens).bind fun (variant, rest) => munch n (acc ++ [variant]) rest

/-- The entry arm, on the body of the `enum`.  The macros in the code that `@emit` leaves (`@step`,
    `@check`, `assert!`) nest within it and are counted by the compiler too; they are not part of
    this. -/
def expand : Nat → List TokenTree → Option (List NormalVariant)
  | 0, _ => none
  | limit + 1, tokens => F.munch limit [] tokens

end Fragments

/-! ## Variants written out -/

def NormalStep.tokens : NormalStep → List TokenTree
  | .tryNext target => [.fatArrow, .ident "try", .ident target]
  | .next target => [.fatArrow, .ident target]
  | .done => []

def attrTokens : List (List TokenTree) → List TokenTree
  | [] => []
  | attr :: attrs => .pound :: .group .bracket attr :: attrTokens attrs

def NormalVariant.tokens (v : NormalVariant) : List TokenTree :=
  attrTokens v.attrs ++ .ident v.var :: .group .parenthesis v.ty :: v.kind.tokens

/-- The variants, separated by commas, with one after the last or without. -/
def bodyTokens (trailing : Bool) : List NormalVariant → List TokenTree
  | [] => []
  | [v] => v.tokens ++ if trailing then [.comma] else []
  | v :: w :: vs => v.tokens ++ .comma :: bodyTokens trailing (w :: vs)

/-- The fragments of a variant parse. -/
structure NormalVariant.Parses (F : Fragments) (v : NormalVariant) : Prop where
  isMeta : ∀ attr ∈ v.attrs, F.isMeta attr = true
  isTy : F.isTy v.ty = true

/-! ## One expansion -/

theorem optionalRest_eq_some_iff {tokens rest : List TokenTree} :
    optionalRest tokens = some rest ↔ tokens = [] ∧ rest = [] ∨ tokens = .comma :: rest := by
  cases tokens with
  | nil => simp [optionalRest, eq_comm]
  | cons t ts => cases t <;> simp [optionalRest]

theorem tryArm_eq_some {tokens rest : List TokenTree} {kind : NormalStep}
    (h : tryArm tokens = some (kind, rest)) :
    ∃ after, optionalRest after = some rest ∧ tokens = kind.tokens ++ after := by
  unfold tryArm at h
  split at h
  · rename_i keyword target after
    split_ifs at h with hkeyword
    obtain ⟨rest', hrest, heq⟩ := Option.map_eq_some_iff.1 h
    cases heq
    exact ⟨after, hrest, by rw [hkeyword]; rfl⟩
  · cases h

theorem nextArm_eq_some {tokens rest : List TokenTree} {kind : NormalStep}
    (h : nextArm tokens = some (kind, rest)) :
    ∃ after, optionalRest after = some rest ∧ tokens = kind.tokens ++ after := by
  unfold nextArm at h
  split at h
  · rename_i target after
    obtain ⟨rest', hrest, heq⟩ := Option.map_eq_some_iff.1 h
    cases heq
    exact ⟨after, hrest, rfl⟩
  · cases h

/-- **The arms tell the steps apart**: the keyword `try` is a target only where no identifier
    follows it. -/
theorem stepArms_eq_some_iff {tokens rest : List TokenTree} {kind : NormalStep} :
    stepArms tokens = some (kind, rest) ↔
      ∃ after, optionalRest after = some rest ∧ tokens = kind.tokens ++ after := by
  constructor
  · intro h
    rcases Option.or_eq_some_iff.1 h with htry | ⟨-, h⟩
    · exact tryArm_eq_some htry
    · rcases Option.or_eq_some_iff.1 h with hnext | ⟨-, hdone⟩
      · exact nextArm_eq_some hnext
      · obtain ⟨rest', hrest, heq⟩ := Option.map_eq_some_iff.1 hdone
        cases heq
        exact ⟨tokens, hrest, rfl⟩
  · rintro ⟨after, hrest, rfl⟩
    cases kind with
    | tryNext target => simp [stepArms, NormalStep.tokens, tryArm, hrest]
    | next target =>
      rcases optionalRest_eq_some_iff.1 hrest with ⟨rfl, rfl⟩ | rfl <;>
        simp [stepArms, NormalStep.tokens, tryArm, nextArm, optionalRest]
    | done =>
      rcases optionalRest_eq_some_iff.1 hrest with ⟨rfl, rfl⟩ | rfl <;>
        simp [stepArms, NormalStep.tokens, tryArm, nextArm, doneArm, optionalRest]

namespace Fragments

variable {F : Fragments} {v : NormalVariant} {tokens rest : List TokenTree}

theorem attributes_eq_some {attrs : List (List TokenTree)} :
    ∀ {tokens}, F.attributes tokens = some (attrs, rest) →
      (∀ attr ∈ attrs, F.isMeta attr = true) ∧ tokens = attrTokens attrs ++ rest := by
  induction attrs with
  | nil =>
    intro tokens h
    unfold attributes at h
    split at h
    · split_ifs at h
      obtain ⟨⟨attrs, r⟩, -, heq⟩ := Option.map_eq_some_iff.1 h
      cases heq
    · cases h
      exact ⟨by simp, rfl⟩
  | cons attr attrs ih =>
    intro tokens h
    unfold attributes at h
    split at h
    · split_ifs at h with hmeta
      obtain ⟨⟨attrs', r⟩, hrest, heq⟩ := Option.map_eq_some_iff.1 h
      cases heq
      obtain ⟨hall, rfl⟩ := ih hrest
      exact ⟨List.forall_mem_cons.2 ⟨hmeta, hall⟩, rfl⟩
    · cases h

theorem attributes_attrTokens {var : String} : ∀ {attrs : List (List TokenTree)},
    (∀ attr ∈ attrs, F.isMeta attr = true) →
      F.attributes (attrTokens attrs ++ .ident var :: rest) = some (attrs, .ident var :: rest) := by
  intro attrs
  induction attrs with
  | nil =>
    intro _
    rfl
  | cons attr attrs ih =>
    intro h
    obtain ⟨hmeta, hall⟩ := List.forall_mem_cons.1 h
    simp [attrTokens, attributes, hmeta, ih hall]

/-- **One expansion takes one variant**, and a comma after it. -/
theorem munchOne_eq_some_iff :
    F.munchOne tokens = some (v, rest) ↔
      v.Parses F ∧ ∃ after, optionalRest after = some rest ∧ tokens = v.tokens ++ after := by
  constructor
  · intro h
    unfold munchOne at h
    split at h
    · rename_i attrs var ty rest' hattrs
      split_ifs at h with hty
      obtain ⟨⟨kind, rest''⟩, hkind, heq⟩ := Option.map_eq_some_iff.1 h
      cases heq
      obtain ⟨hmeta, rfl⟩ := attributes_eq_some hattrs
      obtain ⟨after, hrest, rfl⟩ := stepArms_eq_some_iff.1 hkind
      exact ⟨⟨hmeta, hty⟩, after, hrest, by simp [NormalVariant.tokens]⟩
    · cases h
  · rintro ⟨hparses, after, hrest, rfl⟩
    have htokens : v.tokens ++ after = attrTokens v.attrs ++ .ident v.var ::
        (.group .parenthesis v.ty :: (v.kind.tokens ++ after)) := by simp [NormalVariant.tokens]
    have hkind : stepArms (v.kind.tokens ++ after) = some (v.kind, rest) :=
      stepArms_eq_some_iff.2 ⟨after, hrest, rfl⟩
    rw [htokens, munchOne, attributes_attrTokens hparses.isMeta]
    simp only [hparses.isTy, if_true, hkind, Option.map_some]

/-! ## The whole body -/

theorem tokens_ne_nil (v : NormalVariant) : v.tokens ≠ [] := by
  simp [NormalVariant.tokens]

theorem bodyTokens_eq_nil {trailing : Bool} {vs : List NormalVariant} :
    bodyTokens trailing vs = [] ↔ vs = [] := by
  match vs with
  | [] => simp [bodyTokens]
  | [v] => simp [bodyTokens, tokens_ne_nil]
  | v :: w :: vs => simp [bodyTokens]

/-- What follows the first variant of a body: nothing, or a comma and the body of the others. -/
theorem exists_bodyTokens_cons {vs : List NormalVariant} :
    (∃ trailing, tokens = bodyTokens trailing (v :: vs)) ↔
      ∃ after rest, optionalRest after = some rest ∧ tokens = v.tokens ++ after ∧
        ∃ trailing, rest = bodyTokens trailing vs := by
  constructor
  · rintro ⟨trailing, rfl⟩
    cases vs with
    | nil =>
      cases trailing with
      | true => exact ⟨[.comma], [], rfl, by simp [bodyTokens], true, rfl⟩
      | false => exact ⟨[], [], rfl, by simp [bodyTokens], false, rfl⟩
    | cons w vs => exact ⟨.comma :: bodyTokens trailing (w :: vs), _, rfl, rfl, trailing, rfl⟩
  · rintro ⟨after, rest, hrest, rfl, trailing, rfl⟩
    rcases optionalRest_eq_some_iff.1 hrest with ⟨rfl, hnil⟩ | rfl
    · rw [bodyTokens_eq_nil.1 hnil]
      exact ⟨false, by simp [bodyTokens]⟩
    · cases vs with
      | nil => exact ⟨true, by simp [bodyTokens]⟩
      | cons w vs => exact ⟨trailing, rfl⟩

theorem emit_eq_some_iff {n : Nat} {acc vs : List NormalVariant} :
    emit n acc = some vs ↔ 0 < n ∧ vs = acc ∧ vs ≠ [] := by
  cases n with
  | zero => simp [emit]
  | succ n =>
    cases acc with
    | nil => simp [emit]
    | cons v acc =>
      simp only [emit, Option.some.injEq, Nat.succ_pos, true_and]
      constructor
      · rintro rfl
        exact ⟨rfl, List.cons_ne_nil _ _⟩
      · exact fun h => h.1.symm

/-- **The expansions take a list of variants**, in one expansion each, one that ends them, and
    `@emit`. -/
theorem munch_eq_some_iff {vs : List NormalVariant} : ∀ {n : Nat} {acc : List NormalVariant}
    {tokens : List TokenTree}, F.munch n acc tokens = some vs ↔
      ∃ new, vs = acc ++ new ∧ vs ≠ [] ∧ new.length + 2 ≤ n ∧ (∀ v ∈ new, v.Parses F) ∧
        ∃ trailing, tokens = bodyTokens trailing new := by
  intro n
  induction n with
  | zero => simp [munch]
  | succ n ih =>
    intro acc tokens
    cases tokens with
    | nil =>
      simp only [munch, emit_eq_some_iff]
      constructor
      · rintro ⟨hn, rfl, hne⟩
        exact ⟨[], by simp, hne, Nat.succ_le_succ hn, by simp, false, rfl⟩
      · rintro ⟨new, rfl, hne, hlen, -, trailing, hnil⟩
        obtain rfl := bodyTokens_eq_nil.1 hnil.symm
        exact ⟨Nat.le_of_succ_le_succ hlen, List.append_nil acc, hne⟩
    | cons t ts =>
      simp only [munch, Option.bind_eq_some_iff, Prod.exists, munchOne_eq_some_iff]
      constructor
      · rintro ⟨v, rest, ⟨hparses, after, hrest, htokens⟩, h⟩
        obtain ⟨new, rfl, hne, hlen, hall, hbody⟩ := ih.1 h
        refine ⟨v :: new, by simp, hne, ?_, List.forall_mem_cons.2 ⟨hparses, hall⟩,
          exists_bodyTokens_cons.2 ⟨after, rest, hrest, htokens, hbody⟩⟩
        rw [List.length_cons]
        omega
      · rintro ⟨new, rfl, hne, hlen, hall, hbody⟩
        cases new with
        | nil =>
          obtain ⟨trailing, hnil⟩ := hbody
          cases hnil
        | cons v new =>
          obtain ⟨hparses, hall⟩ := List.forall_mem_cons.1 hall
          obtain ⟨after, rest, hrest, htokens, hbody⟩ := exists_bodyTokens_cons.1 hbody
          refine ⟨v, rest, ⟨hparses, after, hrest, htokens⟩,
            ih.2 ⟨new, by simp, hne, ?_, hall, hbody⟩⟩
          rw [List.length_cons] at hlen
          omega

/-- **What is accepted is a nonempty list of variants, written out**: with attributes and types
    that parse, commas between them and one after the last or none, and few enough that the entry
    arm, an expansion for each of them, one more and `@emit` may nest. -/
theorem expand_eq_some_iff {limit : Nat} {vs : List NormalVariant} :
    F.expand limit tokens = some vs ↔
      vs ≠ [] ∧ vs.length + 3 ≤ limit ∧ (∀ v ∈ vs, v.Parses F) ∧
        ∃ trailing, tokens = bodyTokens trailing vs := by
  cases limit with
  | zero => simp [expand]
  | succ limit =>
    simp only [expand, munch_eq_some_iff, List.nil_append]
    constructor
    · rintro ⟨new, rfl, hne, hlen, hall, hbody⟩
      exact ⟨hne, Nat.succ_le_succ hlen, hall, hbody⟩
    · rintro ⟨hne, hlen, hall, hbody⟩
      exact ⟨vs, rfl, hne, Nat.le_of_succ_le_succ hlen, hall, hbody⟩

-- the entry arm, three times `@munch`, and `@emit`
example : (Fragments.mk (fun _ => true) fun _ => true).expand 5
    [.ident "V1", .group .parenthesis [], .fatArrow, .ident "V2", .comma,
      .ident "V2", .group .parenthesis []] =
    some [⟨[], "V1", [], .next "V2"⟩, ⟨[], "V2", [], .done⟩] := rfl

end Fragments

/-! ## The declaration of a body -/

/-- What the compiler finds for the step of a variant: the variant that the target names, and the
    `Into` or the `TryInto` between the payloads. -/
inductive ResolvedStep {n : Nat} (var : Fin n → String) (Carrier : Fin n → Type) (Latest : Type)
    (i : Fin n) : NormalStep → Type where
  | tryNext (target : Fin n) (tryInto : Carrier i → Except DynError (Carrier target)) :
      ResolvedStep var Carrier Latest i (.tryNext (var target))
  | next (target : Fin n) (into : Carrier i → Carrier target) :
      ResolvedStep var Carrier Latest i (.next (var target))
  | done (into : Carrier i → Latest) : ResolvedStep var Carrier Latest i .done

/-- The arms of `@step` and of `@check`. -/
def ResolvedStep.kind {n : Nat} {var : Fin n → String} {Carrier : Fin n → Type} {Latest : Type}
    {i : Fin n} {step : NormalStep} : ResolvedStep var Carrier Latest i step → Kind Carrier Latest i
  | .tryNext target tryInto => .tryNext target tryInto
  | .next target into => .next target into
  | .done into => .done into

theorem ResolvedStep.cases {n : Nat} {var : Fin n → String} {Carrier : Fin n → Type} {Latest : Type}
    {i : Fin n} {step : NormalStep} (s : ResolvedStep var Carrier Latest i step) :
    (∃ target into, step = .next (var target) ∧ s.kind = .next target into) ∨
    (∃ target tryInto, step = .tryNext (var target) ∧ s.kind = .tryNext target tryInto) ∨
    (∃ into, step = .done ∧ s.kind = .done into) := by
  cases s with
  | tryNext target tryInto => exact .inr (.inl ⟨target, tryInto, rfl, rfl⟩)
  | next target into => exact .inl ⟨target, into, rfl, rfl⟩
  | done into => exact .inr (.inr ⟨into, rfl, rfl⟩)

/-- What the compiler finds for the variants of a body, in the code that `@emit` leaves: their
    names differ, their types are `Versioned`, and their steps resolve. -/
structure Resolved (J : SerdeJson) (vs : List NormalVariant) where
  name : String
  Latest : Type
  nodup : (vs.map (·.var)).Nodup
  payload : Fin vs.length → Versioned J
  step : ∀ i : Fin vs.length,
    ResolvedStep (fun j => vs[j].var) (fun j => (payload j).Carrier) Latest i vs[i].kind

/-- What a step asks of the variants after its own: its target is one of them, and only the last
    variant is without a step. -/
def NormalStep.GoesTo (later : List NormalVariant) : NormalStep → Prop
  | .tryNext target => target ∈ later.map (·.var)
  | .next target => target ∈ later.map (·.var)
  | .done => later = []

namespace Resolved

variable {J : SerdeJson} {vs : List NormalVariant} (R : Resolved J vs)

/-- `@emit`: the declaration of the variants, in their order. -/
abbrev declaration : Declaration J where
  name := R.name
  Variant := Fin vs.length
  variants := List.finRange vs.length
  mem_variants := List.mem_finRange
  stringify i := vs[i].var
  payload := R.payload
  Latest := R.Latest
  kind i := (R.step i).kind

/-- The step of a variant, and what is declared for it. -/
theorem kind_cases (i : Fin vs.length) :
    (∃ (target : Fin vs.length) (into : _), vs[i].kind = .next vs[target].var ∧
      R.declaration.kind i = .next target into) ∨
    (∃ (target : Fin vs.length) (tryInto : _), vs[i].kind = .tryNext vs[target].var ∧
      R.declaration.kind i = .tryNext target tryInto) ∨
    (∃ into, vs[i].kind = .done ∧ R.declaration.kind i = .done into) :=
  (R.step i).cases

variable {R}

theorem wellFormed_iff : assertVersionSetWellFormed R.declaration.VERSIONS = .ok () ↔
    vs ≠ [] ∧ ∀ i j, i < j → (R.payload i).VERSION < (R.payload j).VERSION := by
  have hvariants : R.declaration.VERSIONS =
      (List.finRange vs.length).map fun i => (R.payload i).VERSION := rfl
  rw [assertVersionSetWellFormed_iff, hvariants]
  refine and_congr (by simp [List.finRange_eq_nil_iff]) ?_
  unfold Ascending
  rw [List.pairwise_map]
  constructor
  · intro h i j hij
    have hget := List.pairwise_iff_getElem.1 h i j (by simp) (by simp) hij
    simpa using hget
  · intro h
    exact (List.pairwise_lt_finRange _).imp fun hij => h _ _ hij

/-- The name of a variant tells where it stands. -/
theorem var_mem_drop_iff {i j : Fin vs.length} (R : Resolved J vs) :
    vs[j].var ∈ (vs.drop (i + 1)).map (·.var) ↔ i < j := by
  constructor
  · intro h
    obtain ⟨v, hv, hvar⟩ := List.mem_map.1 h
    obtain ⟨k, hk, rfl⟩ := List.mem_drop_iff_getElem.1 hv
    have hlt : i + 1 + k < (vs.map (·.var)).length := by
      rw [List.length_map]
      omega
    have hat : (vs.map (·.var))[i + 1 + k] = (vs.map (·.var))[(j : Nat)] := by
      simp only [List.getElem_map]
      exact hvar
    have hindex := R.nodup.getElem_inj_iff.1 hat
    exact Fin.lt_def.2 (by omega)
  · intro h
    have hlt : (i : Nat) < j := h
    exact List.mem_map.2 ⟨vs[j], List.mem_drop_iff_getElem.2
      ⟨j - (i + 1), by omega, by congr 1; omega⟩, rfl⟩

theorem check_eq_ok_iff (h : assertVersionSetWellFormed R.declaration.VERSIONS = .ok ())
    (i : Fin vs.length) :
    R.declaration.check i = .ok () ↔ vs[i].kind.GoesTo (vs.drop (i + 1)) := by
  have hmono : StrictMono fun j => (R.payload j).VERSION := fun _ _ => (wellFormed_iff.1 h).2 _ _
  rw [Declaration.check_eq_ok h]
  rcases R.kind_cases i with ⟨target, into, hstep, hkind⟩ | ⟨target, tryInto, hstep, hkind⟩ |
    ⟨into, hstep, hkind⟩
  · rw [hstep, hkind]
    exact hmono.lt_iff_lt.trans R.var_mem_drop_iff.symm
  · rw [hstep, hkind]
    exact hmono.lt_iff_lt.trans R.var_mem_drop_iff.symm
  · rw [hstep, hkind]
    refine (Declaration.newest_eq_iff h).trans ?_
    show (List.finRange vs.length).getLast? = some i ↔ vs.drop (i + 1) = []
    rw [List.getLast?_eq_getElem?, List.drop_eq_nil_iff]
    simp only [List.getElem?_eq_some_iff, List.length_finRange, List.getElem_finRange, Fin.ext_iff,
      Fin.val_cast, exists_prop]
    have hi := i.isLt
    omega

/-- **Whether the declaration of a body compiles**: where the versions ascend in the order of the
    variants, each step goes to a variant listed after its own, and only the last variant is
    without one. -/
theorem accepted_iff : R.declaration.Accepted ↔
    vs ≠ [] ∧ (∀ i j, i < j → (R.payload i).VERSION < (R.payload j).VERSION) ∧
      ∀ i : Fin vs.length, vs[i].kind.GoesTo (vs.drop (i + 1)) := by
  constructor
  · intro hD
    obtain ⟨hne, hlt⟩ := wellFormed_iff.1 hD.wellFormed
    exact ⟨hne, hlt, fun i => (check_eq_ok_iff hD.wellFormed i).1 (hD.checked i)⟩
  · rintro ⟨hne, hlt, hsteps⟩
    have h := wellFormed_iff.2 ⟨hne, hlt⟩
    exact ⟨h, fun i => (check_eq_ok_iff h i).2 (hsteps i)⟩

end Resolved

end VersionedEnvelope
