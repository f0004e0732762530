import VersionedEnvelope.Exec
import VersionedEnvelope.Ascending
import VersionedEnvelope.Json.Reader

/-!
# `serde_json` as a parameter

The crate reads through `serde_json::Deserializer` over a byte slice and writes through its
compact serializer.  Both are third-party code, so they are a parameter of the model: the calls
the crate makes, with the documented behaviour it relies on.

* `Cursor` — a deserializer over a slice: what is left to read and how deep it may still nest.
* `SerdeJson` — the calls, each with a field that says what it does, up to the error it
  reports: the JSON grammar, the recursion limit of 128, `u32` out of integer literals only,
  `IgnoredAny` stepping over a value that is there.  Which float literals are in range is left
  to the parameter.
* `SerdeJson.reference` — an executable deserializer that has every field.
* `ValueAt` — a value, in range and within the limit, stands at a cursor.
-/

set_option autoImplicit false

namespace VersionedEnvelope

open Json

/-- `serde_json::Deserializer<SliceRead>`: the slice, what is left of it, and
    `remaining_depth`. -/
structure Cursor where
  slice : Bytes
  rest : Bytes
  remainingDepth : Nat
  deriving DecidableEq

/-- `Deserializer::from_slice`. -/
def Cursor.fromSlice (bytes : Bytes) : Cursor := ⟨bytes, bytes, recursionLimit⟩

@[simp] theorem Cursor.fromSlice_rest (bytes : Bytes) :
    (Cursor.fromSlice bytes).rest = bytes := rfl
@[simp] theorem Cursor.fromSlice_remainingDepth (bytes : Bytes) :
    (Cursor.fromSlice bytes).remainingDepth = recursionLimit := rfl

/-- The deserializer further on in its slice. -/
def Cursor.moveTo (c : Cursor) (r : Bytes) : Cursor := { c with rest := r }

@[simp] theorem Cursor.moveTo_rest (c : Cursor) (r : Bytes) : (c.moveTo r).rest = r := rfl
@[simp] theorem Cursor.moveTo_remainingDepth (c : Cursor) (r : Bytes) :
    (c.moveTo r).remainingDepth = c.remainingDepth := rfl
@[simp] theorem Cursor.moveTo_moveTo (c : Cursor) (r r' : Bytes) :
    (c.moveTo r).moveTo r' = c.moveTo r' := rfl

/-- Inside an array or object that was just opened. -/
def Cursor.enter (c : Cursor) (r : Bytes) : Cursor :=
  { c with rest := r, remainingDepth := c.remainingDepth - 1 }

/-- Outside an array or object that was just closed. -/
def Cursor.leave (c : Cursor) (r : Bytes) : Cursor :=
  { c with rest := r, remainingDepth := c.remainingDepth + 1 }

@[simp] theorem Cursor.enter_rest (c : Cursor) (r : Bytes) : (c.enter r).rest = r := rfl
@[simp] theorem Cursor.enter_remainingDepth (c : Cursor) (r : Bytes) :
    (c.enter r).remainingDepth = c.remainingDepth - 1 := rfl
@[simp] theorem Cursor.leave_rest (c : Cursor) (r : Bytes) : (c.leave r).rest = r := rfl

@[simp] theorem Cursor.leave_moveTo (c : Cursor) (r r' : Bytes) :
    (c.moveTo r).leave r' = c.leave r' := rfl

theorem Cursor.leave_enter {c : Cursor} (h : 0 < c.remainingDepth) (r r' : Bytes) :
    (c.enter r).leave r' = c.moveTo r' := by
  cases c
  simp only [Cursor.enter, Cursor.moveTo, Cursor.leave, Cursor.mk.injEq, true_and]
  exact Nat.sub_add_cancel h

/-- `SeqAccess` and `MapAccess`: the deserializer, and whether no item has been read yet. -/
structure Access where
  de : Cursor
  first : Bool

/-- What `deserialize_any` does at a cursor: the visitor method it calls, and where the
    deserializer then stands.  Opening an array or object takes one level of depth. -/
def Cursor.visit (inRange : Bytes → Bool) (c : Cursor) : Option (Visit × Cursor) :=
  match Json.visit inRange c.rest with
  | none => none
  | some (.seq, r) => if c.remainingDepth ≤ 1 then none else some (.seq, c.enter r)
  | some (.map, r) => if c.remainingDepth ≤ 1 then none else some (.map, c.enter r)
  | some (v, r) => some (v, c.moveTo r)

/-- What `deserialize_map` does at a cursor: it enters an object and refuses anything else. -/
def Cursor.openMap (c : Cursor) : Option Cursor :=
  match token c.rest with
  | some (.openObject, r) => if c.remainingDepth ≤ 1 then none else some (c.enter r)
  | _ => none

theorem Cursor.openMap_fromSlice {bytes r : Bytes} (h : skipWs bytes = Byte.lbrace :: r) :
    (Cursor.fromSlice bytes).openMap = some ((Cursor.fromSlice bytes).enter r) := by
  have hdepth : ¬ (Cursor.fromSlice bytes).remainingDepth ≤ 1 := by
    rw [Cursor.fromSlice_remainingDepth]; decide
  simp only [Cursor.openMap, Cursor.fromSlice_rest, token_openObject_iff.2 h, if_neg hdepth]

/-- What the visitor of a `u32` makes of a token. -/
def visitU32 : Visit → Option UInt32
  | .u64 n => if n < UInt32.size then some (UInt32.ofNat n) else none
  | _ => none

/-- The version number that a value is: a bare integer that fits. -/
def versionNumber : Json → Option UInt32
  | .number lit => (bareInteger lit).bind fun n =>
    if n < UInt32.size then some (UInt32.ofNat n) else none
  | _ => none

/-- A value stands at the cursor, in range and within the limit; `r` is what follows it. -/
def ValueAt (inRange : Bytes → Bool) (c : Cursor) (j : Json) (r : Bytes) : Prop :=
  readValue inRange c.remainingDepth c.rest = some (j, r)

/-- A key whose characters need no escape in JSON. -/
def PlainKey (k : String) : Prop := ∀ c ∈ k.toList, c.isAlphanum = true ∨ c = '_'

instance (k : String) : Decidable (PlainKey k) :=
  decidable_of_iff (k.toList.all fun c => c.isAlphanum || c == '_') (by simp [PlainKey])

/-- A key and its colon. -/
def fieldText (k : String) : Bytes := Byte.quote :: (ascii k ++ [Byte.quote, Byte.colon])

/-- An object written without whitespace. -/
def structText (fields : List (String × Bytes)) : Bytes :=
  Byte.lbrace :: (List.intercalate [Byte.comma] (fields.map fun (k, v) => fieldText k ++ v) ++
    [Byte.rbrace])

/-- The calls into `serde_json`, with the behaviour that is relied on. -/
structure SerdeJson where
  /-- `serde_json::Error`. -/
  Error : Type
  /-- Whether a literal that is read as a float is within the range of floats. -/
  inRange : Bytes → Bool
  deserializeAny : Cursor → Except Error (Visit × Cursor)
  deserializeMap : Cursor → Except Error Cursor
  deserializeU32 : Cursor → Except Error (UInt32 × Cursor)
  deserializeIgnoredAny : Cursor → Except Error Cursor
  /-- `SeqAccess::next_element_seed`, up to its seed: where the element starts. -/
  nextElement : Access → Except Error (Option Cursor)
  /-- `MapAccess::next_key_seed`: the key handed to the seed, and what follows it. -/
  nextKey : Access → Except Error (Option (String × Cursor))
  /-- `MapAccess::next_value_seed`, up to its seed: where the value starts. -/
  nextValue : Cursor → Except Error Cursor
  endSeq : Cursor → Except Error Cursor
  endMap : Cursor → Except Error Cursor
  /-- `Deserializer::end`. -/
  endInput : Cursor → Except Error Unit
  /-- `Serializer::serialize_u32`. -/
  serializeU32 : UInt32 → Bytes
  /-- `Serializer::serialize_struct` and its `serialize_field`s. -/
  serializeStruct : String → List (String × Bytes) → Bytes
  deserializeAny_reads : ∀ c, (deserializeAny c).toOption = c.visit inRange
  deserializeMap_reads : ∀ c, (deserializeMap c).toOption = c.openMap
  /-- Only an integer literal that fits is a `u32`. -/
  deserializeU32_reads : ∀ c v c', c.visit inRange = some (v, c') →
    (deserializeU32 c).toOption = (visitU32 v).map (·, c')
  /-- A value that is there is stepped over. -/
  deserializeIgnoredAny_reads : ∀ c j r, ValueAt inRange c j r →
    deserializeIgnoredAny c = .ok (c.moveTo r)
  nextElement_reads : ∀ seq, (nextElement seq).toOption =
    (Json.nextElement seq.first seq.de.rest).map fun (k, r) => k.map fun _ => seq.de.moveTo r
  nextKey_reads : ∀ map, (nextKey map).toOption =
    (Json.nextKey map.first map.de.rest).map fun (k, r) => k.map fun k => (k, map.de.moveTo r)
  nextValue_reads : ∀ c, (nextValue c).toOption = (punct Byte.colon c.rest).map c.moveTo
  endSeq_reads : ∀ c, (endSeq c).toOption = (punct Byte.rbracket c.rest).map c.leave
  endMap_reads : ∀ c, (endMap c).toOption = (punct Byte.rbrace c.rest).map c.leave
  /-- Only whitespace may be left. -/
  endInput_reads : ∀ c, (endInput c).toOption = if skipWs c.rest = [] then some () else none
  /-- An integer is written in decimal. -/
  serializeU32_text : ∀ n, serializeU32 n = ascii (toString n)
  /-- A struct is written as an object, its fields in order and without whitespace. -/
  serializeStruct_text : ∀ name fields, (∀ f ∈ fields, PlainKey f.1) →
    serializeStruct name fields = structText fields

namespace SerdeJson

variable (J : SerdeJson) {α : Type}

/-- A `DeserializeSeed` run on the deserializer: the value it makes, and where it stops. -/
abbrev Seed (α : Type) := Cursor → Exec J.Error (α × Cursor)

/-- `serde_json::from_slice`: one value, then the end of the input. -/
def fromSlice (seed : J.Seed α) (bytes : Bytes) : Exec J.Error α := do
  let (value, de) ← seed (Cursor.fromSlice bytes)
  Exec.lift (J.endInput de)
  pure value

variable {J} in
/-- What is read from a slice is what the seed made of its first value. -/
theorem exists_seed_of_fromSlice {seed : J.Seed α} {bytes : Bytes} {x : α}
    (h : J.fromSlice seed bytes = .ok x) : ∃ c', seed (Cursor.fromSlice bytes) = .ok (x, c') := by
  obtain ⟨⟨y, c'⟩, hseed, hend⟩ := Exec.bind_eq_ok.1 h
  obtain ⟨u, -, hpure⟩ := Exec.bind_eq_ok.1 hend
  cases hpure
  exact ⟨c', hseed⟩

variable {J} in
/-- Nothing but the seed panics. -/
theorem fromSlice_eq_panics {seed : J.Seed α} {bytes : Bytes} {m : String} :
    J.fromSlice seed bytes = .panics m ↔ seed (Cursor.fromSlice bytes) = .panics m := by
  constructor
  · intro h
    rcases Exec.bind_eq_panics h with hseed | ⟨y, -, hend⟩
    · exact hseed
    · rcases Exec.bind_eq_panics hend with hlift | ⟨u, -, hpure⟩
      · exact absurd hlift (Exec.lift_ne_panics _ m)
      · cases hpure
  · intro h
    rw [fromSlice, h]
    rfl

/-- The image of what is read, where the seed is an image. -/
theorem fromSlice_map {β : Type} {seed : J.Seed α} {seed' : J.Seed β} {bytes : Bytes} (f : α → β)
    (h : seed' (Cursor.fromSlice bytes) = Prod.map f id <$> seed (Cursor.fromSlice bytes)) :
    J.fromSlice seed' bytes = f <$> J.fromSlice seed bytes := by
  unfold fromSlice
  rw [h]
  cases seed (Cursor.fromSlice bytes) with
  | ok y =>
    show (Exec.lift (J.endInput y.2) >>= fun _ => pure (f y.1)) = _
    simp only [Exec.ok_bind]
    cases Exec.lift (J.endInput y.2) <;> rfl
  | err e => rfl
  | panics m => rfl
  | hang => rfl

/-- `Deserializer::deserialize_map`: the visitor's `visit_map` runs inside the object. -/
def deserializeMapWith (visitMap : Access → Exec J.Error (α × Cursor)) : J.Seed α := fun c => do
  let de ← Exec.lift (J.deserializeMap c)
  let (value, de) ← visitMap ⟨de, true⟩
  let de ← Exec.lift (J.endMap de)
  pure (value, de)

variable {J}

theorem nextKey_ok {map : Access} {k : Option String} {r : Bytes}
    (h : Json.nextKey map.first map.de.rest = some (k, r)) :
    Exec.lift (J.nextKey map) = .ok (k.map (·, map.de.moveTo r)) := by
  have hreturns := Exec.returns_lift (J.nextKey_reads map)
  rw [h] at hreturns
  exact hreturns.some

theorem nextValue_ok {c : Cursor} {r : Bytes} (h : punct Byte.colon c.rest = some r) :
    Exec.lift (J.nextValue c) = .ok (c.moveTo r) := by
  have hreturns := Exec.returns_lift (J.nextValue_reads c)
  rw [h] at hreturns
  exact hreturns.some

theorem nextKey_remainingDepth {map : Access} {k : String} {de : Cursor}
    (h : J.nextKey map = .ok (some (k, de))) : de.remainingDepth = map.de.remainingDepth := by
  have hreads := J.nextKey_reads map
  rw [h] at hreads
  obtain ⟨⟨k', r⟩, -, heq⟩ := Option.map_eq_some_iff.1 hreads.symm
  obtain ⟨k'', -, heq⟩ := Option.map_eq_some_iff.1 heq
  cases heq
  rfl

theorem nextValue_remainingDepth {c de : Cursor} (h : J.nextValue c = .ok de) :
    de.remainingDepth = c.remainingDepth := by
  have hreads := J.nextValue_reads c
  rw [h] at hreads
  obtain ⟨r, -, rfl⟩ := Option.map_eq_some_iff.1 hreads.symm
  rfl

variable (J)

/-- The bytes are a document `serde_json` accepts. -/
def document (bytes : Bytes) : Option Json := Json.document J.inRange bytes

theorem visitU32_numberVisit {inRange : Bytes → Bool} {lit : Bytes} {v : Visit}
    (h : numberVisit inRange lit = some v) : visitU32 v = versionNumber (.number lit) := by
  cases lit with
  | nil =>
    simp only [numberVisit, Option.ite_none_right_eq_some, Option.some.injEq] at h
    simp [← h.2, visitU32, versionNumber, bareInteger]
  | cons b ds =>
    simp only [numberVisit] at h
    by_cases hall : (b :: ds).all isDigit = true
    · have hbare : bareInteger (b :: ds) = some (digitsValue (b :: ds)) :=
        if_pos ⟨List.cons_ne_nil _ _, hall⟩
      rw [if_pos hall] at h
      simp only [versionNumber, hbare, Option.bind_some]
      split_ifs at h with hlt hfloat
      · cases h; rfl
      · cases h
        have hsize : UInt32.size ≤ UInt64.size := by decide
        rw [if_neg (by omega)]
        rfl
    · have hbare : bareInteger (b :: ds) = none := if_neg fun hbare => hall hbare.2
      rw [if_neg hall] at h
      simp only [versionNumber, hbare, Option.bind_none]
      split_ifs at h <;> cases h <;> rfl

/-- **A `u32` is read out of the version numbers and nothing else.** -/
theorem deserializeU32_returns {J : SerdeJson} {c : Cursor} {j : Json} {r : Bytes}
    (h : ValueAt J.inRange c j r) :
    (Exec.lift (J.deserializeU32 c)).Returns ((versionNumber j).map (·, c.moveTo r)) := by
  apply Exec.returns_lift
  unfold ValueAt at h
  have hvisit := J.deserializeU32_reads c
  simp only [Cursor.visit, Json.visit] at hvisit
  cases hd : c.remainingDepth with
  | zero => rw [hd] at h; cases h
  | succ k =>
    rw [hd] at h hvisit
    rcases readValue_cases h with ⟨t, ht, hj⟩ | ⟨hk, r₀, xs, ht, -, rfl⟩ | ⟨hk, r₀, ms, ht, -, rfl⟩
    · rw [ht, Option.bind_some] at hvisit
      cases t with
      | null => cases hj; exact hvisit _ _ rfl
      | bool b => cases hj; exact hvisit _ _ rfl
      | string s => cases hj; exact hvisit _ _ rfl
      | openArray => cases hj
      | openObject => cases hj
      | number lit =>
        simp only [Token.scalar, Option.ite_none_right_eq_some, Option.some.injEq] at hj
        obtain ⟨hsome, rfl⟩ := hj
        obtain ⟨v, hv⟩ := Option.isSome_iff_exists.1 hsome
        rw [← visitU32_numberVisit hv]
        refine hvisit v _ ?_
        obtain ⟨hseq, hmap⟩ := numberVisit_ne hv
        simp only [Token.visit, hv, Option.map_some]
    · rw [ht, Option.bind_some] at hvisit
      exact hvisit .seq (c.enter r₀) (by simp [Token.visit]; omega)
    · rw [ht, Option.bind_some] at hvisit
      exact hvisit .map (c.enter r₀) (by simp [Token.visit]; omega)

def orError {β : Type} (o : Option β) : Except Unit β :=
  match o with
  | some a => .ok a
  | none => .error ()

theorem toOption_orError {β : Type} (o : Option β) : (orError o).toOption = o := by
  cases o <;> rfl

theorem orError_eq_ok {β : Type} {o : Option β} {a : β} : orError o = .ok a ↔ o = some a := by
  cases o <;> simp [orError]

/-- An executable deserializer and serializer with the documented behaviour. -/
def reference (inRange : Bytes → Bool) : SerdeJson where
  Error := Unit
  inRange := inRange
  deserializeAny c := orError (c.visit inRange)
  deserializeMap c := orError c.openMap
  deserializeU32 c := orError ((c.visit inRange).bind fun (v, c') => (visitU32 v).map (·, c'))
  deserializeIgnoredAny c :=
    orError ((readValue inRange c.remainingDepth c.rest).map fun (_, r) => c.moveTo r)
  nextElement seq := orError
    ((Json.nextElement seq.first seq.de.rest).map fun (k, r) => k.map fun _ => seq.de.moveTo r)
  nextKey map := orError
    ((Json.nextKey map.first map.de.rest).map fun (k, r) => k.map fun k => (k, map.de.moveTo r))
  nextValue c := orError ((punct Byte.colon c.rest).map c.moveTo)
  endSeq c := orError ((punct Byte.rbracket c.rest).map c.leave)
  endMap c := orError ((punct Byte.rbrace c.rest).map c.leave)
  endInput c := orError (if skipWs c.rest = [] then some () else none)
  serializeU32 n := ascii (toString n)
  serializeStruct _ fields := structText fields
  deserializeAny_reads c := toOption_orError _
  deserializeMap_reads c := toOption_orError _
  deserializeU32_reads c v c' h := by rw [toOption_orError, h]; rfl
  deserializeIgnoredAny_reads c j r h := by
    rw [show readValue inRange c.remainingDepth c.rest = some (j, r) from h]; rfl
  nextElement_reads seq := toOption_orError _
  nextKey_reads map := toOption_orError _
  nextValue_reads c := toOption_orError _
  endSeq_reads c := toOption_orError _
  endMap_reads c := toOption_orError _
  endInput_reads c := toOption_orError _
  serializeU32_text _ := rfl
  serializeStruct_text _ _ _ := rfl

end SerdeJson

end VersionedEnvelope
