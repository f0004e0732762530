import Mathlib.Algebra.Order.Ring.Rat
import Mathlib.Data.Finset.Basic
import VersionedEnvelope.Json.Reader

/-!
# JSON Schema

The keywords `type`, `enum`, `minimum`, `properties`, `required` and `additionalProperties` of
JSON Schema draft 7, with their meaning on JSON values.  A schema with other keywords stands for
the values that it admits.

* `literalValue` — the rational number that a literal denotes.
* `same` — equality of JSON values: numbers by value, objects in any order.
* `conforms` — a value conforms to a schema.
* `literalValue_of_bareInteger` — a bare run of digits denotes its value.
-/

set_option autoImplicit false

namespace Json

/-! ## Numbers -/

def isExponentMark (b : UInt8) : Bool := b == Byte.lowerE || b == Byte.upperE

/-- The value of an exponent: digits with an optional sign. -/
def exponentValue : Bytes → Int
  | [] => 0
  | b :: ds =>
    if b = Byte.minus then -(digitsValue ds : Int)
    else if b = Byte.plus then digitsValue ds
    else digitsValue (b :: ds)

/-- The number that a literal without a sign denotes. -/
def unsignedValue (lit : Bytes) : Rat :=
  let mantissa := lit.takeWhile (!isExponentMark ·)
  let exponent := (lit.dropWhile (!isExponentMark ·)).tail
  let whole := mantissa.takeWhile (· != Byte.dot)
  let fraction := (mantissa.dropWhile (· != Byte.dot)).tail
  (digitsValue (whole ++ fraction) : Rat) / 10 ^ fraction.length *
    (10 : Rat) ^ exponentValue exponent

/-- The number that a literal denotes. -/
def literalValue : Bytes → Rat
  | [] => 0
  | b :: lit => if b = Byte.minus then -unsignedValue lit else unsignedValue (b :: lit)

/-- **A bare run of digits denotes its value.** -/
theorem literalValue_of_bareInteger {lit : Bytes} {n : Nat} (h : bareInteger lit = some n) :
    literalValue lit = n := by
  obtain ⟨⟨hne, hall⟩, rfl⟩ : (lit ≠ [] ∧ lit.all isDigit = true) ∧ digitsValue lit = n := by
    simpa only [bareInteger, Option.ite_none_right_eq_some, Option.some.injEq] using h
  have hdigit : ∀ b ∈ lit, isDigit b = true := List.all_eq_true.1 hall
  have hplain : ∀ b ∈ lit, (!isExponentMark b) = true ∧ (b != Byte.dot) = true := by
    intro b hb
    have := hdigit b hb
    constructor
    · by_contra hmark
      simp only [isExponentMark, Bool.not_eq_true, Bool.not_eq_false', Bool.or_eq_true,
        beq_iff_eq] at hmark
      rcases hmark with rfl | rfl <;> exact absurd this (by decide)
    · by_contra hdot
      simp only [bne_iff_ne, ne_eq, not_not] at hdot
      subst hdot
      exact absurd this (by decide)
  cases lit with
  | nil => exact absurd rfl hne
  | cons b ds =>
    have hminus : b ≠ Byte.minus := by
      rintro rfl
      exact absurd (hdigit _ (List.mem_cons_self ..)) (by decide)
    have hmark : (b :: ds).takeWhile (!isExponentMark ·) = b :: ds :=
      List.takeWhile_eq_self_iff.2 fun x hx => (hplain x hx).1
    have hmark' : (b :: ds).dropWhile (!isExponentMark ·) = [] :=
      List.dropWhile_eq_nil_iff.2 fun x hx => (hplain x hx).1
    have hdot : (b :: ds).takeWhile (· != Byte.dot) = b :: ds :=
      List.takeWhile_eq_self_iff.2 fun x hx => (hplain x hx).2
    have hdot' : (b :: ds).dropWhile (· != Byte.dot) = [] :=
      List.dropWhile_eq_nil_iff.2 fun x hx => (hplain x hx).2
    rw [literalValue, if_neg hminus, unsignedValue]
    simp [hmark, hmark', hdot, hdot', exponentValue]

/-! ## Equality -/

mutual
/-- The same JSON value. -/
def same : Json → Json → Bool
  | .null, .null => true
  | .bool a, .bool b => a == b
  | .number a, .number b => literalValue a == literalValue b
  | .string s, .string t => s == t
  | .array xs, .array ys => sameElements xs ys
  | .object ms, .object ns => ms.length == ns.length && sameMembers ms ns
  | _, _ => false
def sameElements : List Json → List Json → Bool
  | [], [] => true
  | x :: xs, y :: ys => same x y && sameElements xs ys
  | _, _ => false
def sameMembers : List (String × Json) → List (String × Json) → Bool
  | [], _ => true
  | (k, x) :: ms, ns =>
    (match ns.lookup k with
      | some y => same x y
      | none => false) && sameMembers ms ns
end

/-! ## Schemas -/

inductive InstanceType where
  | null
  | boolean
  | object
  | array
  | number
  | string
  | integer
  deriving DecidableEq, Repr

/-- The validation of objects, with subschemas in `S`. -/
structure ObjectValidation (S : Type) where
  properties : List (String × S)
  required : Finset String
  additionalProperties : Option S

structure SchemaObject (S : Type) where
  description : Option String := none
  instanceType : Option InstanceType := none
  format : Option String := none
  enumValues : Option (List Json) := none
  minimum : Option Rat := none
  object : Option (ObjectValidation S) := none

inductive Schema where
  | bool (b : Bool)
  | object (o : SchemaObject Schema)
  /-- Any other schema, by the values that conform to it. -/
  | other (admits : Json → Bool)

/-- An integer is a number without a fractional part, however it is spelled. -/
def hasType : Json → InstanceType → Bool
  | .null, .null => true
  | .bool _, .boolean => true
  | .object _, .object => true
  | .array _, .array => true
  | .number _, .number => true
  | .number lit, .integer => (literalValue lit).isInt
  | .string _, .string => true
  | _, _ => false

def atLeast (minimum : Rat) : Json → Bool
  | .number lit => minimum ≤ literalValue lit
  | _ => true

/-- The keywords that look at the value as a whole; `format` is an annotation. -/
def SchemaObject.admits {S : Type} (o : SchemaObject S) (j : Json) : Bool :=
  o.instanceType.all (hasType j ·) && o.enumValues.all (·.any (same j)) &&
    o.minimum.all (atLeast · j)

/-- The schema of a property. -/
def ObjectValidation.schemaOf {S : Type} (v : ObjectValidation S) (k : String) : Option S :=
  (v.properties.lookup k).or v.additionalProperties

mutual
/-- **A value conforms to a schema.** -/
def conforms : Json → Schema → Bool
  | _, .bool b => b
  | j, .other admits => admits j
  | .object ms, .object o => o.admits (.object ms) && (match o.object with
    | none => true
    | some v => decide (∀ k ∈ v.required, k ∈ ms.map (·.1)) && conformsMembers ms v)
  | j, .object o => o.admits j
def conformsMembers : List (String × Json) → ObjectValidation Schema → Bool
  | [], _ => true
  | (k, x) :: ms, v =>
    (match v.schemaOf k with
      | some s => conforms x s
      | none => true) && conformsMembers ms v
end

theorem conformsMembers_iff {v : ObjectValidation Schema} {ms : List (String × Json)} :
    conformsMembers ms v = true ↔
      ∀ m ∈ ms, ∀ s, v.schemaOf m.1 = some s → conforms m.2 s = true := by
  induction ms with
  | nil => simp [conformsMembers]
  | cons m ms ih =>
    rw [conformsMembers, Bool.and_eq_true, ih, List.forall_mem_cons]
    refine and_congr_left fun _ => ?_
    cases v.schemaOf m.1 <;> simp

end Json
