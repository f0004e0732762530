import VersionedEnvelope.Errors
import VersionedEnvelope.Validate

/-!
# Documents and envelopes

The passes over the bytes of a document: one that records which fields the root has and
validates every value, and one for each of the two fields that hands its value to a seed and
steps over everything else.

* `Document.fromJson_returns` — the first pass classifies the root of a document.
* `checkFields_ofKeys` — the fields are checked for what is missing, then for what is repeated,
  then for what is unknown.
* `deserializeField_eq` — where the field is there once, its seed runs on its value, and
  nothing else decides the result.
* `Envelope.parse_of_isEnvelope` — on an envelope, only its version can be refused.
-/

set_option autoImplicit false

namespace VersionedEnvelope

open Json

/-! ## The first pass: which fields are there -/

/-- Whitespace bytes allowed by RFC 8259. -/
def JSON_WHITESPACE : Bytes := [0x20, 0x09, 0x0A, 0x0D]

def firstNonWhitespace (bytes : Bytes) : Option UInt8 :=
  bytes.find? fun byte => ¬ byte ∈ JSON_WHITESPACE

inductive Key where
  | version
  | data
  | other (name : String)
  deriving DecidableEq

/-- `KeyVisitor::visit_str`. -/
def Key.visitStr (value : String) : Key :=
  if value = VERSION_FIELD then .version
  else if value = VERSIONED_DATA_FIELD then .data
  else .other value

inductive Field where
  | absent
  | present
  | duplicated
  deriving DecidableEq

def Field.set : Field → Field
  | .absent => .present
  | .present => .duplicated
  | .duplicated => .duplicated

structure ObjectFields where
  version : Field
  data : Field
  unknown : Finset String

namespace ObjectFields

def empty : ObjectFields := ⟨.absent, .absent, ∅⟩

/-- What a key adds to the record. -/
def record (fields : ObjectFields) : Key → ObjectFields
  | .version => { fields with version := fields.version.set }
  | .data => { fields with data := fields.data.set }
  | .other name => { fields with unknown := insert name fields.unknown }

/-- `ObjectFieldsVisitor::visit_map`. -/
def visitMap (J : SerdeJson) (map : Access) : Exec J.Error (ObjectFields × Cursor) :=
  forEach J.nextKey (fun fields key de => do
    let de ← Exec.lift (J.nextValue de)
    let ((), de) ← Validated.deserialize J de.remainingDepth de
    pure (fields.record (Key.visitStr key), de)) empty map

def deserialize (J : SerdeJson) : J.Seed ObjectFields := J.deserializeMapWith (visitMap J)

/-- The record of a list of keys. -/
def ofKeys (keys : List String) : ObjectFields :=
  keys.foldl (fun fields key => fields.record (Key.visitStr key)) empty

end ObjectFields

inductive Document where
  | object (fields : ObjectFields)
  | nonObject (kind : NonObjectKind)

/-- The kind of a root that starts with this byte. -/
def NonObjectKind.ofByte (b : UInt8) : Option NonObjectKind :=
  if b = Byte.lowerN then some .null
  else if b = Byte.lowerT ∨ b = Byte.lowerF then some .bool
  else if b = Byte.minus ∨ isDigit b then some .number
  else if b = Byte.quote then some .string
  else if b = Byte.lbracket then some .array
  else none

/-- `Document::from_json`. -/
def Document.fromJson (J : SerdeJson) (bytes : Bytes) : Exec J.Error Document :=
  let first := firstNonWhitespace bytes
  if first = some Byte.lbrace then
    Document.object <$> J.fromSlice (ObjectFields.deserialize J) bytes
  else do
    validateJson J bytes
    let other := match first with
      | none => "None"
      | some byte => s!"Some({byte})"
    let kind ← Exec.expect (first.bind NonObjectKind.ofByte)
      (s!"valid JSON that is not an object starts with a null, bool, number, string, or array " ++
        s!"byte, but it started with {other}")
    pure (.nonObject kind)

def checkFields {E : Type} (fields : ObjectFields) : Except (EnvelopeError E) Unit :=
  match fields.version, fields.data with
  | .absent, .absent => .error (.notAnEnvelope (.missing .versionAndData))
  | .absent, .present | .absent, .duplicated => .error (.notAnEnvelope (.missing .version))
  | .present, .absent | .duplicated, .absent => .error (.notAnEnvelope (.missing .data))
  | .duplicated, .present => .error (.duplicateFields .version)
  | .present, .duplicated => .error (.duplicateFields .data)
  | .duplicated, .duplicated => .error (.duplicateFields .versionAndData)
  | .present, .present =>
    if fields.unknown ≠ ∅ then .error (.unknownFields fields.unknown) else .ok ()

/-! ## The passes for one field -/

inductive EnvelopeField where
  | version
  | data
  deriving DecidableEq

def EnvelopeField.name : EnvelopeField → String
  | .version => VERSION_FIELD
  | .data => VERSIONED_DATA_FIELD

def EnvelopeField.matches : EnvelopeField → Key → Bool
  | .version, .version => true
  | .version, .data => false
  | .version, .other _ => false
  | .data, .data => true
  | .data, .version => false
  | .data, .other _ => false

namespace FieldSeed

variable (J : SerdeJson) {α : Type}

/-- `map.next_value::<IgnoredAny>()`. -/
def nextIgnored (de : Cursor) : Exec J.Error Cursor := do
  let de ← Exec.lift (J.nextValue de)
  Exec.lift (J.deserializeIgnoredAny de)

/-- `while map.next_entry::<IgnoredAny, IgnoredAny>()?.is_some() {}`. -/
def skipEntries (map : Access) : Exec J.Error (Unit × Cursor) :=
  forEach J.nextKey (fun _ _ de => ((), ·) <$> nextIgnored J de) () map

/-- One turn of the loop of `FieldSeed::visit_map`. -/
def visitKey (field : EnvelopeField) (seed : J.Seed α) (map : Access) :
    Exec J.Error (Exec.Flow Access (α × Cursor)) := do
  match ← Exec.lift (J.nextKey map) with
  | none =>
    .panics s!"the envelope has a `{field.name}` field, which check_fields established"
  | some (key, de) =>
    if ¬ field.matches (Key.visitStr key) then
      let de ← nextIgnored J de
      pure (.next ⟨de, false⟩)
    else
      let de ← Exec.lift (J.nextValue de)
      let (value, de) ← seed de
      let ((), de) ← skipEntries J ⟨de, false⟩
      pure (.done (value, de))

/-- `FieldSeed::visit_map`. -/
def visitMap (field : EnvelopeField) (seed : J.Seed α) (map : Access) :
    Exec J.Error (α × Cursor) :=
  Exec.loop (visitKey J field seed) (map.de.rest.length + 1) map

def deserialize (field : EnvelopeField) (seed : J.Seed α) : J.Seed α :=
  J.deserializeMapWith (visitMap J field seed)

end FieldSeed

/-- Deserializes a single field from the document. -/
def deserializeField (J : SerdeJson) {α : Type} (bytes : Bytes) (field : EnvelopeField)
    (seed : J.Seed α) : Exec J.Error α :=
  J.fromSlice (FieldSeed.deserialize J field seed) bytes

/-- A document with exactly one `version` field that's a `u32`, exactly one `versioned_data`
    field, and nothing else. -/
structure Envelope where
  bytes : Bytes
  version : UInt32

namespace Envelope

variable (J : SerdeJson)

def parse (bytes : Bytes) : Exec (EnvelopeError J.Error) Envelope := do
  let document ← (Document.fromJson J bytes).mapErr .json
  match document with
  | .nonObject kind => .err (.notAnEnvelope (.nonObjectRoot kind))
  | .object fields => do
    Exec.lift (checkFields fields)
    let version ← (deserializeField J bytes .version fun de =>
      Exec.lift (J.deserializeU32 de)).mapErr .version
    pure ⟨bytes, version⟩

def data {α : Type} (envelope : Envelope) (seed : J.Seed α) : Exec J.Error α :=
  deserializeField J envelope.bytes .data seed

end Envelope

/-! ## What the first pass finds -/

theorem firstNonWhitespace_eq (bytes : Bytes) :
    firstNonWhitespace bytes = (skipWs bytes).head? := by
  induction bytes with
  | nil => rfl
  | cons b bytes ih =>
    have hmem : b ∈ JSON_WHITESPACE ↔ isWhitespace b = true := by
      simp [JSON_WHITESPACE, isWhitespace, or_assoc]
    unfold firstNonWhitespace at ih ⊢
    by_cases hb : isWhitespace b = true
    · simpa [List.find?_cons, hmem, hb, skipWs] using ih
    · simp [hmem, hb, skipWs]

/-- The document with this root. -/
def Document.ofJson : Json → Document
  | .null => .nonObject .null
  | .bool _ => .nonObject .bool
  | .number _ => .nonObject .number
  | .string _ => .nonObject .string
  | .array _ => .nonObject .array
  | .object ms => .object (ObjectFields.ofKeys (ms.map (·.1)))

/-- Validating the value of a member and recording its key. -/
theorem ObjectFields.entry_returns (J : SerdeJson) {k : Nat} (hk : 0 < k) (fields : ObjectFields)
    (key : String) (de : Cursor) (hde : de.remainingDepth = k) :
    (do
      let de ← Exec.lift (J.nextValue de)
      let ((), de) ← Validated.deserialize J de.remainingDepth de
      pure (fields.record (Key.visitStr key), de) : Exec J.Error (ObjectFields × Cursor)).Returns
    ((memberValue (readValue J.inRange k) de.rest).map fun (_, r) =>
      (fields.record (Key.visitStr key), de.moveTo r)) := by
  have h := Validated.memberValue_returns
    (fun de => Validated.deserialize J de.remainingDepth de)
    (fun de hde => Validated.deserialize_returns _ de (by omega) (Nat.le_refl _)) de hde
  have h := h.map fun (_, de) => (fields.record (Key.visitStr key), de)
  simpa [Function.comp_def, map_eq_pure_bind] using h

theorem ObjectFields.deserialize_returns (J : SerdeJson) {bytes r : Bytes}
    (h : skipWs bytes = Byte.lbrace :: r) :
    (ObjectFields.deserialize J (Cursor.fromSlice bytes)).Returns
      ((members (readValue J.inRange (recursionLimit - 1)) r).map fun (ms, r') =>
        (ofKeys (ms.map (·.1)), (Cursor.fromSlice bytes).moveTo r')) := by
  have hopen := Exec.returns_lift (J.deserializeMap_reads (Cursor.fromSlice bytes))
  rw [Cursor.openMap_fromSlice h] at hopen
  have hwalk := forEachTo_returns J.nextKey _
    (fun fields key (_ : Json) => fields.record (Key.visitStr key)) openKey_opens
    (memberValue_reads (readValue_reads (recursionLimit - 1))) J.nextKey_reads
    (entry_returns J (Nat.zero_lt_succ _)) J.endMap_reads (r.length + 1) empty
    ⟨(Cursor.fromSlice bytes).enter r, true⟩ rfl (Nat.lt_succ_self _)
  simp only [Cursor.leave_enter (c := Cursor.fromSlice bytes) (Nat.zero_lt_succ _)] at hwalk
  unfold ObjectFields.deserialize SerdeJson.deserializeMapWith ofKeys
  simp only [hopen.some, Exec.ok_bind, List.foldl_map]
  exact hwalk

/-- The kind of a root that starts with this token. -/
def NonObjectKind.ofToken : Token → Option NonObjectKind
  | .null => some .null
  | .bool _ => some .bool
  | .number _ => some .number
  | .string _ => some .string
  | .openArray => some .array
  | .openObject => none

/-- The first byte tells the kind. -/
theorem NonObjectKind.ofByte_of_tokenAt {b : UInt8} {w r : Bytes} {t : Token}
    (h : tokenAt (b :: w) = some (t, r)) : NonObjectKind.ofByte b = NonObjectKind.ofToken t := by
  unfold NonObjectKind.ofByte
  rw [tokenAt] at h
  split_ifs at h with hn ht hf hnum hq hb hc
  all_goals
    simp only [Option.map_eq_some_iff, Prod.exists, Prod.mk.injEq, Option.some.injEq] at h
  · obtain ⟨_, -, rfl, -⟩ := h
    subst hn; rfl
  · obtain ⟨_, -, rfl, -⟩ := h
    subst ht; rfl
  · obtain ⟨_, -, rfl, -⟩ := h
    subst hf; rfl
  · obtain ⟨_, _, -, rfl, -⟩ := h
    simp [hn, ht, hf, hnum, ofToken]
  · obtain ⟨_, _, -, rfl, -⟩ := h
    subst hq; rfl
  · obtain ⟨rfl, -⟩ := h
    subst hb; rfl
  · obtain ⟨rfl, -⟩ := h
    subst hc; rfl

theorem NonObjectKind.ofByte_of_readValue {inRange : Bytes → Bool} {d : Nat} {w w' r : Bytes}
    {b : UInt8} {j : Json} (hw : skipWs w = b :: w') (hb : b ≠ Byte.lbrace)
    (h : readValue inRange (d + 1) w = some (j, r)) :
    ∃ kind, NonObjectKind.ofByte b = some kind ∧ Document.ofJson j = .nonObject kind := by
  rcases readValue_cases h with ⟨t, ht, hj⟩ | ⟨-, r₀, xs, ht, -, rfl⟩ | ⟨-, r₀, ms, ht, -, -⟩
  · rw [token, hw] at ht
    rw [ofByte_of_tokenAt ht]
    cases t <;> simp only [Token.scalar, Option.some.injEq, reduceCtorEq,
      Option.ite_none_right_eq_some] at hj
    · exact ⟨.null, rfl, hj ▸ rfl⟩
    · exact ⟨.bool, rfl, hj ▸ rfl⟩
    · exact ⟨.number, rfl, hj.2 ▸ rfl⟩
    · exact ⟨.string, rfl, hj ▸ rfl⟩
  · rw [token_openArray_iff, hw] at ht
    cases ht
    exact ⟨.array, by decide, rfl⟩
  · rw [token_openObject_iff, hw] at ht
    cases ht
    exact absurd rfl hb

/-- **The first pass classifies the root of a document**, and refuses what is not one. -/
theorem Document.fromJson_returns (J : SerdeJson) (bytes : Bytes) :
    (Document.fromJson J bytes).Returns ((J.document bytes).map Document.ofJson) := by
  unfold Document.fromJson
  rw [firstNonWhitespace_eq]
  by_cases hfirst : (skipWs bytes).head? = some Byte.lbrace
  · obtain ⟨r, hr⟩ := List.head?_eq_some_iff.1 hfirst
    rw [if_pos hfirst]
    have h := fromSlice_returns (o := (members (readValue J.inRange (recursionLimit - 1)) r).map
      fun (ms, r') => (ObjectFields.ofKeys (ms.map (·.1)), r')) (by
        rw [Option.map_map]; exact ObjectFields.deserialize_returns J hr)
    have hreading : (J.document bytes).map Document.ofJson =
        (((members (readValue J.inRange (recursionLimit - 1)) r).map
          fun (ms, r') => (ObjectFields.ofKeys (ms.map (·.1)), r')).bind
            fun (x, r') => if skipWs r' = [] then some x else none).map Document.object := by
      unfold SerdeJson.document
      rw [document_of_openObject (token_openObject_iff.2 hr)]
      rcases members (readValue J.inRange (recursionLimit - 1)) r with _ | ⟨ms, r'⟩
      · rfl
      · by_cases hr' : skipWs r' = [] <;> simp [hr', ofJson]
    rw [hreading]
    exact h.map Document.object
  · rw [if_neg hfirst]
    have h := validateJson_returns J bytes
    cases hdoc : J.document bytes with
    | none =>
      rw [hdoc] at h
      obtain ⟨e, he⟩ := h.none
      simp [he]
    | some j =>
      rw [hdoc] at h
      obtain ⟨⟨j', r⟩, hread, hend⟩ := Option.bind_eq_some_iff.1 hdoc
      simp only [Option.ite_none_right_eq_some, Option.some.injEq] at hend
      obtain ⟨-, rfl⟩ := hend
      cases hw : skipWs bytes with
      | nil =>
        obtain ⟨t, hne, ht, -⟩ := readValue_reads _ _ _ _ hread
        rw [hw] at ht
        exact absurd (List.append_eq_nil_iff.1 ht.symm).1 hne
      | cons b w' =>
        rw [hw] at hfirst
        obtain ⟨kind, hkind, hofJson⟩ := NonObjectKind.ofByte_of_readValue hw
          (fun hb => hfirst (by rw [hb]; rfl)) hread
        simp [h.some, hkind, hofJson]

/-! ## What the keys of an object say -/

/-- The two fields, or the one of them, that something is said of. -/
def EnvelopeFieldSet.ofBools : Bool → Bool → Option EnvelopeFieldSet
  | false, false => none
  | true, false => some .version
  | false, true => some .data
  | true, true => some .versionAndData

def missingFields (keys : List String) : Option EnvelopeFieldSet :=
  EnvelopeFieldSet.ofBools (keys.count VERSION_FIELD = 0) (keys.count VERSIONED_DATA_FIELD = 0)

def repeatedFields (keys : List String) : Option EnvelopeFieldSet :=
  EnvelopeFieldSet.ofBools (2 ≤ keys.count VERSION_FIELD)
    (2 ≤ keys.count VERSIONED_DATA_FIELD)

def otherKeys (keys : List String) : Finset String :=
  (keys.filter fun k => k ≠ VERSION_FIELD ∧ k ≠ VERSIONED_DATA_FIELD).toFinset

theorem mem_otherKeys {keys : List String} {k : String} :
    k ∈ otherKeys keys ↔ k ∈ keys ∧ k ≠ VERSION_FIELD ∧ k ≠ VERSIONED_DATA_FIELD := by
  simp [otherKeys]

/-- The state of a field that occurs `n` times. -/
def Field.ofCount : Nat → Field
  | 0 => .absent
  | 1 => .present
  | _ => .duplicated

theorem Field.ofCount_succ (n : Nat) : Field.ofCount (n + 1) = (Field.ofCount n).set :=
  match n with
  | 0 => rfl
  | 1 => rfl
  | _ + 2 => rfl

/-- **The record counts the two fields and collects the other keys.** -/
theorem ObjectFields.ofKeys_eq (keys : List String) :
    ObjectFields.ofKeys keys = ⟨.ofCount (keys.count VERSION_FIELD),
      .ofCount (keys.count VERSIONED_DATA_FIELD), otherKeys keys⟩ := by
  induction keys using List.reverseRecOn with
  | nil => rfl
  | append_singleton keys key ih =>
    have hne : VERSIONED_DATA_FIELD ≠ VERSION_FIELD := by decide
    have hstep : ofKeys (keys ++ [key]) = (ofKeys keys).record (Key.visitStr key) := by
      simp [ofKeys]
    rw [hstep, ih]
    unfold Key.visitStr
    by_cases hv : key = VERSION_FIELD
    · subst hv
      have hother : otherKeys (keys ++ [VERSION_FIELD]) = otherKeys keys := by
        ext x; simp only [mem_otherKeys, List.mem_append, List.mem_singleton]; tauto
      simp [record, List.count_append, Field.ofCount_succ, hother, hne.symm]
    · by_cases hd : key = VERSIONED_DATA_FIELD
      · subst hd
        have hother : otherKeys (keys ++ [VERSIONED_DATA_FIELD]) = otherKeys keys := by
          ext x; simp only [mem_otherKeys, List.mem_append, List.mem_singleton]; tauto
        simp [record, List.count_append, Field.ofCount_succ, hother, hne]
      · have hother : otherKeys (keys ++ [key]) = insert key (otherKeys keys) := by
          ext x
          simp only [mem_otherKeys, List.mem_append, List.mem_singleton, Finset.mem_insert]
          by_cases hx : x = key
          · subst hx; simp [hv, hd]
          · simp [hx]
        simp [record, List.count_append, hv, hd, hother]

theorem checkFields_ofKeys {E : Type} (keys : List String) :
    checkFields (E := E) (ObjectFields.ofKeys keys) =
      match missingFields keys, repeatedFields keys with
      | some fields, _ => .error (.notAnEnvelope (.missing fields))
      | none, some fields => .error (.duplicateFields fields)
      | none, none =>
        if otherKeys keys ≠ ∅ then .error (.unknownFields (otherKeys keys)) else .ok () := by
  rw [ObjectFields.ofKeys_eq]
  unfold missingFields repeatedFields
  rcases keys.count VERSION_FIELD with _ | _ | n <;>
    rcases keys.count VERSIONED_DATA_FIELD with _ | _ | m <;>
    simp [checkFields, Field.ofCount, EnvelopeFieldSet.ofBools]

/-! ## The pass for one field -/

namespace FieldSeed

variable {J : SerdeJson} {α : Type}

theorem nextIgnored_ok {de : Cursor} {d : Nat} {x : Json} {r : Bytes}
    (hde : de.remainingDepth = d)
    (h : memberValue (readValue J.inRange d) de.rest = some (x, r)) :
    nextIgnored J de = .ok (de.moveTo r) := by
  obtain ⟨r₀, hp, hx⟩ := memberValue_eq_some.1 h
  have hvalue : ValueAt J.inRange (de.moveTo r₀) x r := by
    rw [ValueAt, Cursor.moveTo_remainingDepth, hde]; exact hx
  simp [nextIgnored, SerdeJson.nextValue_ok hp, J.deserializeIgnoredAny_reads _ _ _ hvalue]

/-- The members that are left are stepped over, to the end of the object. -/
theorem skipEntries_ok (map : Access) {d n : Nat} {ms : List (String × Json)} {r : Bytes}
    (hd : map.de.remainingDepth = d)
    (h : collect nextKey Byte.rbrace (memberValue (readValue J.inRange d)) n map.first map.de.rest =
      some (ms, r)) :
    ∃ de, skipEntries J map = .ok ((), de) ∧ Exec.lift (J.endMap de) = .ok (map.de.leave r) := by
  have hall := forEachTo_ok J.nextKey (fun _ _ de => ((), ·) <$> nextIgnored J de)
    (fun _ _ _ => ()) J.nextKey_reads
    (fun _ _ de x r hde hx => by rw [nextIgnored_ok hde hx]; rfl) J.endMap_reads (s := ()) hd
    (collect_fuel openKey_opens (memberValue_reads (readValue_reads d)) (by decide) h)
  obtain ⟨⟨⟨⟩, de⟩, hloop, hend⟩ := Exec.bind_eq_ok.1 hall
  obtain ⟨de', hend, heq⟩ := Exec.bind_eq_ok.1 hend
  cases heq
  exact ⟨de, hloop, hend⟩

variable {field : EnvelopeField} {seed : J.Seed α}

/-- One turn at a member that matches. -/
theorem visitKey_of_matches (seed : J.Seed α) {k : String} {map : Access} {r₀ r : Bytes}
    (hk : field.matches (Key.visitStr k) = true)
    (hn : Json.nextKey map.first map.de.rest = some (some k, r₀))
    (hp : punct Byte.colon r₀ = some r) :
    visitKey J field seed map = (do
      let (value, de) ← seed (map.de.moveTo r)
      let ((), de) ← skipEntries J ⟨de, false⟩
      pure (.done (value, de))) := by
  have hcolon := SerdeJson.nextValue_ok (J := J) (c := map.de.moveTo r₀) hp
  unfold visitKey
  simp only [SerdeJson.nextKey_ok hn, Option.map_some, Exec.ok_bind, hk, not_true_eq_false,
    if_false, hcolon, Cursor.moveTo_moveTo]

/-- One turn at any other member. -/
theorem visitKey_of_not_matches {k : String} {map : Access} {r₀ r : Bytes} {d : Nat} {x : Json}
    (hk : field.matches (Key.visitStr k) = false) (hd : map.de.remainingDepth = d)
    (hn : Json.nextKey map.first map.de.rest = some (some k, r₀))
    (hx : memberValue (readValue J.inRange d) r₀ = some (x, r)) :
    visitKey J field seed map = .ok (.next ⟨map.de.moveTo r, false⟩) := by
  have hskip : nextIgnored J (map.de.moveTo r₀) = _ := nextIgnored_ok hd hx
  unfold visitKey
  simp [SerdeJson.nextKey_ok hn, hk, hskip]

/-- **The walk finds its member**: from the first member that matches on, the seed runs on its
    value and the members after it are stepped over, whatever the seed does. -/
theorem visitMap_loop_found {k : String} {l : Located Json} {post : List (String × Located Json)}
    {d : Nat} {r : Bytes} (hk : field.matches (Key.visitStr k) = true) (seed : J.Seed α) :
    ∀ (pre : List (String × Located Json)) (n : Nat) (map : Access), map.de.remainingDepth = d →
      collect nextKey Byte.rbrace (memberValue (locate (readValue J.inRange d))) n map.first
        map.de.rest = some (pre ++ (k, l) :: post, r) →
      (∀ m ∈ pre, field.matches (Key.visitStr m.1) = false) →
      Exec.loop (visitKey J field seed) n map = (do
        let (value, de) ← seed (map.de.moveTo l.before)
        let ((), de) ← skipEntries J ⟨de, false⟩
        pure (value, de)) ∧
      ∃ n', collect nextKey Byte.rbrace (memberValue (readValue J.inRange d)) n' false l.after =
        some (post.map fun (k, l) => (k, l.value), r)
  | _, 0, _, _, h, _ => by cases h
  -- the member is next
  | [], n + 1, map, hd, h, _ => by
    rcases collect_cases h with ⟨hnil, -⟩ | ⟨k', l', ys, r₀, r₁, hcons, hn, hl, hrec⟩
    · cases hnil
    · cases hcons
      obtain ⟨rb, hp, hloc⟩ := memberValue_eq_some.1 hl
      obtain ⟨-, rfl, rfl⟩ := locate_eq_some.1 hloc
      refine ⟨?_, n, by rw [collect_locate, hrec]; rfl⟩
      unfold Exec.loop
      rw [visitKey_of_matches seed hk hn hp]
      cases seed (map.de.moveTo l.before) with
      | ok y =>
        simp only [Exec.ok_bind]
        cases skipEntries J ⟨y.2, false⟩ <;> rfl
      | err e => rfl
      | panics m => rfl
      | hang => rfl
  | m :: pre, n + 1, map, hd, h, hpre => by
    rcases collect_cases h with ⟨hnil, -⟩ | ⟨k', l', ys, r₀, r₁, hcons, hn, hl, hrec⟩
    · cases hnil
    · cases hcons
      obtain ⟨rb, hp, hloc⟩ := memberValue_eq_some.1 hl
      obtain ⟨hx, rfl, rfl⟩ := locate_eq_some.1 hloc
      rw [Exec.loop_next (visitKey_of_not_matches (hpre _ (List.mem_cons_self ..)) hd hn
        (memberValue_eq_some.2 ⟨_, hp, hx⟩))]
      exact visitMap_loop_found hk seed pre n ⟨map.de.moveTo l'.after, false⟩ hd hrec
        fun m hm => hpre m (List.mem_cons_of_mem _ hm)

/-- The members that are left are stepped over without a panic, from wherever it is. -/
theorem skipEntries_ne_panics (map : Access) (m : String) : skipEntries J map ≠ .panics m := by
  refine forEach_ne_panics (fun _ _ de h => ?_) () map
  cases hn : nextIgnored J de with
  | panics m' =>
    rcases Exec.bind_eq_panics hn with hc | ⟨c, -, hc⟩
    · exact Exec.lift_ne_panics _ _ hc
    · exact Exec.lift_ne_panics _ _ hc
  | _ => rw [hn] at h; cases h

end FieldSeed

/-- The deserializer at the value of a member of the root. -/
def memberCursor (bytes : Bytes) (l : Located Json) : Cursor :=
  ⟨bytes, l.before, recursionLimit - 1⟩

theorem valueAt_memberCursor {J : SerdeJson} {bytes : Bytes} {ls : List (String × Located Json)}
    (h : readMembers J.inRange bytes = some ls) {m : String × Located Json} (hm : m ∈ ls) :
    ValueAt J.inRange (memberCursor bytes m.2) m.2.value m.2.after :=
  readMembers_value h hm

/-- **The pass for a field finds its member**, whatever its seed does with the value. -/
theorem deserializeField_found {J : SerdeJson} {α : Type} {bytes : Bytes} {field : EnvelopeField}
    {pre post : List (String × Located Json)} {k : String} {l : Located Json}
    (h : readMembers J.inRange bytes = some (pre ++ (k, l) :: post))
    (hpre : ∀ m ∈ pre, field.matches (Key.visitStr m.1) = false)
    (hk : field.matches (Key.visitStr k) = true) (seed : J.Seed α) :
    FieldSeed.deserialize J field seed (Cursor.fromSlice bytes) = (do
      let (value, de) ← seed (memberCursor bytes l)
      let ((), de) ← FieldSeed.skipEntries J ⟨de, false⟩
      let de ← Exec.lift (J.endMap de)
      pure (value, de)) := by
  obtain ⟨r, r', ht, hls, -⟩ := readMembers_eq_some.1 h
  have hopen := Exec.returns_lift (J.deserializeMap_reads (Cursor.fromSlice bytes))
  rw [Cursor.openMap_fromSlice (token_openObject_iff.1 ht)] at hopen
  obtain ⟨hwalk, -⟩ := FieldSeed.visitMap_loop_found hk seed pre _
    ⟨(Cursor.fromSlice bytes).enter r, true⟩ rfl hls hpre
  unfold FieldSeed.deserialize SerdeJson.deserializeMapWith
  simp only [hopen.some, Exec.ok_bind, FieldSeed.visitMap]
  rw [show (Cursor.enter (Cursor.fromSlice bytes) r).rest.length = r.length from rfl, hwalk]
  simp only [bind_assoc]
  rfl

/-- **The result for a field is what its seed makes of the value of the field**, when the seed
    takes one value. -/
theorem deserializeField_eq {J : SerdeJson} {α : Type} {bytes : Bytes} {field : EnvelopeField}
    {seed : J.Seed α} (pre : List (String × Located Json)) {post : List (String × Located Json)}
    {k : String} {l : Located Json}
    (h : readMembers J.inRange bytes = some (pre ++ (k, l) :: post))
    (hpre : ∀ m ∈ pre, field.matches (Key.visitStr m.1) = false)
    (hk : field.matches (Key.visitStr k) = true)
    (hone : ∀ x c', seed (memberCursor bytes l) = .ok (x, c') →
      c' = (memberCursor bytes l).moveTo l.after) :
    deserializeField J bytes field seed = (·.1) <$> seed (memberCursor bytes l) := by
  obtain ⟨r, r', ht, hls, hr'⟩ := readMembers_eq_some.1 h
  unfold deserializeField SerdeJson.fromSlice
  rw [deserializeField_found h hpre hk seed]
  cases hs : seed (memberCursor bytes l) with
  | ok y =>
    obtain ⟨x, c'⟩ := y
    obtain rfl := hone x c' hs
    -- the members after it, the closing brace and the end of the input are there
    obtain ⟨-, n, hrest⟩ := FieldSeed.visitMap_loop_found hk seed pre _
      ⟨(Cursor.fromSlice bytes).enter r, true⟩ rfl hls hpre
    obtain ⟨de, hskip, hclose⟩ := FieldSeed.skipEntries_ok
      ⟨(memberCursor bytes l).moveTo l.after, false⟩ rfl hrest
    have hend := Exec.returns_lift (J.endInput_reads ((memberCursor bytes l).leave r'))
    rw [Cursor.leave_rest, if_pos hr'] at hend
    simp [hskip, hclose, hend.some]
  | err e => rfl
  | panics m => rfl
  | hang => rfl

/-! ## Envelopes -/

/-- The root is an object with the members `version` and `versioned_data`, in some order, and
    no other. -/
def IsEnvelope (inRange : Bytes → Bool) (bytes : Bytes) (version data : Located Json) : Prop :=
  readMembers inRange bytes = some [(VERSION_FIELD, version), (VERSIONED_DATA_FIELD, data)] ∨
  readMembers inRange bytes = some [(VERSIONED_DATA_FIELD, data), (VERSION_FIELD, version)]

/-- The member of an envelope that a field is. -/
def EnvelopeField.select (version data : Located Json) : EnvelopeField → Located Json
  | .version => version
  | .data => data

/-- Each field of an envelope is there, behind members that do not match. -/
theorem IsEnvelope.split {inRange : Bytes → Bool} {bytes : Bytes} {version data : Located Json}
    (h : IsEnvelope inRange bytes version data) (field : EnvelopeField) :
    ∃ pre post, readMembers inRange bytes =
        some (pre ++ (field.name, field.select version data) :: post) ∧
      (∀ m ∈ pre, field.matches (Key.visitStr m.1) = false) ∧
      field.matches (Key.visitStr field.name) = true := by
  rcases h with h | h
  · cases field with
    | version => exact ⟨[], _, h, by simp, rfl⟩
    | data => exact ⟨[_], _, h, by simpa using (by decide), rfl⟩
  · cases field with
    | version => exact ⟨[_], _, h, by simpa using (by decide), rfl⟩
    | data => exact ⟨[], _, h, by simp, rfl⟩

theorem EnvelopeFieldSet.ofBools_eq_none {version data : Bool} :
    EnvelopeFieldSet.ofBools version data = none ↔ version = false ∧ data = false := by
  cases version <;> cases data <;> simp [ofBools]

/-- Two keys, each once, and no other: they come in one of two orders. -/
theorem eq_pair_of_count {β : Type} {V D : String} (hne : V ≠ D) {ls : List (String × β)}
    (hV : (ls.map (·.1)).count V = 1) (hD : (ls.map (·.1)).count D = 1)
    (hall : ∀ m ∈ ls, m.1 = V ∨ m.1 = D) :
    ∃ v d, ls = [(V, v), (D, d)] ∨ ls = [(D, d), (V, v)] := by
  match ls with
  | [] => simp at hV
  | [(k, x)] =>
    rcases hall _ (List.mem_cons_self ..) with rfl | rfl
    · simp [hne] at hD
    · simp [hne.symm] at hV
  | [(k, x), (k', y)] =>
    have hk := hall (k, x) (by simp)
    have hk' := hall (k', y) (by simp)
    simp only at hk hk'
    rcases hk with rfl | rfl <;> rcases hk' with rfl | rfl
    · simp [hne] at hD
    · exact ⟨x, y, .inl rfl⟩
    · exact ⟨y, x, .inr rfl⟩
    · simp [hne.symm] at hV
  | (k, x) :: (k', y) :: (k'', z) :: rest =>
    have hk := hall (k, x) (by simp)
    have hk' := hall (k', y) (by simp)
    have hk'' := hall (k'', z) (by simp)
    simp only at hk hk' hk''
    simp only [List.map_cons, List.count_cons, beq_iff_eq] at hV hD
    -- three keys out of two: one of them occurs twice
    rcases hk with rfl | rfl <;> rcases hk' with rfl | rfl <;> rcases hk'' with rfl | rfl <;>
      simp [hne, hne.symm] at hV hD

/-- **Nothing missing, nothing repeated, nothing else: an envelope.** -/
theorem exists_isEnvelope {inRange : Bytes → Bool} {bytes : Bytes}
    {ls : List (String × Located Json)} (h : readMembers inRange bytes = some ls)
    (hmissing : missingFields (ls.map (·.1)) = none)
    (hrepeated : repeatedFields (ls.map (·.1)) = none) (hother : otherKeys (ls.map (·.1)) = ∅) :
    ∃ version data, IsEnvelope inRange bytes version data := by
  have hne : VERSION_FIELD ≠ VERSIONED_DATA_FIELD := by decide
  obtain ⟨hv0, hd0⟩ := EnvelopeFieldSet.ofBools_eq_none.1 hmissing
  obtain ⟨hv2, hd2⟩ := EnvelopeFieldSet.ofBools_eq_none.1 hrepeated
  simp only [decide_eq_false_iff_not] at hv0 hd0 hv2 hd2
  have hall : ∀ m ∈ ls, m.1 = VERSION_FIELD ∨ m.1 = VERSIONED_DATA_FIELD := by
    intro m hm
    by_contra hm'
    have hmem : m.1 ∈ otherKeys (ls.map (·.1)) :=
      mem_otherKeys.2 ⟨List.mem_map_of_mem hm, not_or.1 hm'⟩
    rw [hother] at hmem
    exact absurd hmem (Finset.notMem_empty _)
  obtain ⟨version, data, rfl | rfl⟩ :=
    eq_pair_of_count hne (by omega) (by omega) hall
  · exact ⟨version, data, .inl h⟩
  · exact ⟨version, data, .inr h⟩

theorem checkFields_of_isEnvelope {E : Type} {inRange : Bytes → Bool} {bytes : Bytes}
    {version data : Located Json} (h : IsEnvelope inRange bytes version data) :
    ∃ ms, document inRange bytes = some (.object ms) ∧
      checkFields (E := E) (ObjectFields.ofKeys (ms.map (·.1))) = .ok () := by
  rcases h with h | h
  · exact ⟨_, document_object_iff.2 ⟨_, h, rfl⟩, rfl⟩
  · exact ⟨_, document_object_iff.2 ⟨_, h, rfl⟩, rfl⟩

section IsEnvelope

variable {J : SerdeJson} {bytes : Bytes} {version data : Located Json}

theorem IsEnvelope.valueAt (h : IsEnvelope J.inRange bytes version data) (field : EnvelopeField) :
    ValueAt J.inRange (memberCursor bytes (field.select version data))
      (field.select version data).value (field.select version data).after := by
  obtain ⟨pre, post, hls, -, -⟩ := h.split field
  exact valueAt_memberCursor hls (m := (field.name, field.select version data)) (by simp)

theorem IsEnvelope.valueAt_version (h : IsEnvelope J.inRange bytes version data) :
    ValueAt J.inRange (memberCursor bytes version) version.value version.after :=
  h.valueAt .version

theorem IsEnvelope.valueAt_data (h : IsEnvelope J.inRange bytes version data) :
    ValueAt J.inRange (memberCursor bytes data) data.value data.after :=
  h.valueAt .data

/-- The pass for a field of an envelope, with a seed that takes one value. -/
theorem IsEnvelope.deserializeField_eq {α : Type} {seed : J.Seed α}
    (h : IsEnvelope J.inRange bytes version data) (field : EnvelopeField)
    (hone : ∀ x c', seed (memberCursor bytes (field.select version data)) = .ok (x, c') →
      c' = (memberCursor bytes (field.select version data)).moveTo
        (field.select version data).after) :
    deserializeField J bytes field seed =
      (·.1) <$> seed (memberCursor bytes (field.select version data)) := by
  obtain ⟨pre, post, hls, hpre, hk⟩ := h.split field
  exact VersionedEnvelope.deserializeField_eq pre hls hpre hk hone

/-- What the pass for a field of an envelope returns is what its seed made of the field. -/
theorem IsEnvelope.deserializeField_ok {α : Type} {seed : J.Seed α} {x : α}
    (h : IsEnvelope J.inRange bytes version data) (field : EnvelopeField)
    (hx : deserializeField J bytes field seed = .ok x) :
    ∃ c', seed (memberCursor bytes (field.select version data)) = .ok (x, c') := by
  obtain ⟨pre, post, hls, hpre, hk⟩ := h.split field
  obtain ⟨y, hwalk, hend⟩ := Exec.bind_eq_ok.1 hx
  rw [deserializeField_found hls hpre hk seed] at hwalk
  obtain ⟨⟨x', c'⟩, hseed, hrest⟩ := Exec.bind_eq_ok.1 hwalk
  obtain ⟨u, -, hrest⟩ := Exec.bind_eq_ok.1 hrest
  obtain ⟨de, -, hpure⟩ := Exec.bind_eq_ok.1 hrest
  cases hpure
  obtain ⟨u', -, hpure⟩ := Exec.bind_eq_ok.1 hend
  cases hpure
  exact ⟨c', hseed⟩

/-- Nothing but its seed panics in the pass for a field that is there. -/
theorem IsEnvelope.deserializeField_panics {α : Type} {seed : J.Seed α} {m : String}
    (h : IsEnvelope J.inRange bytes version data) (field : EnvelopeField)
    (hm : deserializeField J bytes field seed = .panics m) :
    seed (memberCursor bytes (field.select version data)) = .panics m := by
  obtain ⟨pre, post, hls, hpre, hk⟩ := h.split field
  rcases Exec.bind_eq_panics hm with hwalk | ⟨y, -, hend⟩
  · rw [deserializeField_found hls hpre hk seed] at hwalk
    rcases Exec.bind_eq_panics hwalk with hseed | ⟨y, -, hrest⟩
    · exact hseed
    · rcases Exec.bind_eq_panics hrest with hskip | ⟨u, -, hclose⟩
      · exact absurd hskip (FieldSeed.skipEntries_ne_panics _ m)
      · rcases Exec.bind_eq_panics hclose with hlift | ⟨de, -, hpure⟩
        · exact absurd hlift (Exec.lift_ne_panics _ m)
        · cases hpure
  · rcases Exec.bind_eq_panics hend with hlift | ⟨u, -, hpure⟩
    · exact absurd hlift (Exec.lift_ne_panics _ m)
    · cases hpure

/-- A seed that panics at a field that is there. -/
theorem IsEnvelope.deserializeField_of_panics {α : Type} {seed : J.Seed α} {m : String}
    (h : IsEnvelope J.inRange bytes version data) (field : EnvelopeField)
    (hm : seed (memberCursor bytes (field.select version data)) = .panics m) :
    deserializeField J bytes field seed = .panics m := by
  obtain ⟨pre, post, hls, hpre, hk⟩ := h.split field
  unfold deserializeField SerdeJson.fromSlice
  rw [deserializeField_found hls hpre hk seed, hm]
  rfl

theorem deserializeField_version (h : IsEnvelope J.inRange bytes version data) :
    (deserializeField J bytes .version fun de => Exec.lift (J.deserializeU32 de)).Returns
      (versionNumber version.value) := by
  have hreturns := SerdeJson.deserializeU32_returns h.valueAt_version
  have hone : ∀ x c', Exec.lift (J.deserializeU32 (memberCursor bytes version)) = .ok (x, c') →
      c' = (memberCursor bytes version).moveTo version.after := by
    intro x c' hok
    rw [hok] at hreturns
    obtain ⟨n, -, heq⟩ := Option.map_eq_some_iff.1 (show _ = some (x, c') from hreturns)
    cases heq
    rfl
  rw [h.deserializeField_eq .version hone]
  show ((·.1) <$> Exec.lift (J.deserializeU32 (memberCursor bytes version))).Returns _
  simpa [Function.comp_def] using hreturns.map (·.1)

/-- **The data of an envelope is what the seed makes of it.** -/
theorem deserializeField_data {α : Type} {seed : J.Seed α}
    (h : IsEnvelope J.inRange bytes version data)
    (hone : ∀ x c', seed (memberCursor bytes data) = .ok (x, c') →
      c' = (memberCursor bytes data).moveTo data.after) :
    deserializeField J bytes .data seed = (·.1) <$> seed (memberCursor bytes data) :=
  h.deserializeField_eq .data hone

end IsEnvelope

namespace Envelope

variable {J : SerdeJson} {bytes : Bytes}

theorem parse_of_not_document (h : J.document bytes = none) :
    ∃ e, parse J bytes = .err (.json e) := by
  have hfirst := Document.fromJson_returns J bytes
  rw [h] at hfirst
  obtain ⟨e, he⟩ := hfirst.none
  exact ⟨e, by simp [parse, he]⟩

/-- The fields of an object are never why it is not JSON. -/
theorem checkFields_ne_json {E : Type} (fields : ObjectFields) (e : E) :
    checkFields fields ≠ .error (.json e) := by
  unfold checkFields
  split
  all_goals try simp
  split <;> simp

/-- An envelope is not JSON exactly when the first pass says so. -/
theorem parse_eq_json_iff {e : J.Error} :
    parse J bytes = .err (.json e) ↔ Document.fromJson J bytes = .err e := by
  unfold parse
  cases Document.fromJson J bytes with
  | err e' => simp
  | panics m => simp
  | hang => simp
  | ok document =>
    simp only [Exec.mapErr_ok, Exec.ok_bind, reduceCtorEq, iff_false]
    cases document with
    | nonObject kind => simp
    | object fields =>
      cases hcheck : checkFields (E := J.Error) fields with
      | error e' =>
        simp only [hcheck, Exec.lift_error, Exec.err_bind]
        intro h
        cases h
        exact checkFields_ne_json fields e hcheck
      | ok u =>
        simp only [hcheck, Exec.lift_ok, Exec.ok_bind]
        cases deserializeField J bytes .version fun de => Exec.lift (J.deserializeU32 de) <;> simp

theorem parse_of_nonObject {j : Json} {kind : NonObjectKind} (h : J.document bytes = some j)
    (hj : Document.ofJson j = .nonObject kind) :
    parse J bytes = .err (.notAnEnvelope (.nonObjectRoot kind)) := by
  have hfirst := Document.fromJson_returns J bytes
  rw [h, Option.map_some, hj] at hfirst
  simp [parse, hfirst.some]

theorem parse_of_object {ms : List (String × Json)} (h : J.document bytes = some (.object ms)) :
    parse J bytes = (do
      Exec.lift (checkFields (ObjectFields.ofKeys (ms.map (·.1))))
      let version ← (deserializeField J bytes .version fun de =>
        Exec.lift (J.deserializeU32 de)).mapErr .version
      pure ⟨bytes, version⟩) := by
  have hfirst := Document.fromJson_returns J bytes
  rw [h, Option.map_some] at hfirst
  simp [parse, hfirst.some, Document.ofJson]

theorem parse_of_checkFields {ms : List (String × Json)} {e : EnvelopeError J.Error}
    (h : J.document bytes = some (.object ms))
    (he : checkFields (ObjectFields.ofKeys (ms.map (·.1))) = .error e) :
    parse J bytes = .err e := by
  rw [parse_of_object h, he]
  rfl

/-- **An envelope parses exactly when its version is a version number.** -/
theorem parse_of_isEnvelope {version data : Located Json}
    (h : IsEnvelope J.inRange bytes version data) :
    (∀ v, versionNumber version.value = some v → parse J bytes = .ok ⟨bytes, v⟩) ∧
    (versionNumber version.value = none → ∃ e, parse J bytes = .err (.version e)) := by
  obtain ⟨ms, hdoc, hcheck⟩ := checkFields_of_isEnvelope (E := J.Error) h
  have hversion := deserializeField_version h
  rw [parse_of_object hdoc, hcheck]
  constructor
  · intro v hv
    rw [hv] at hversion
    simp [hversion.some]
  · intro hv
    rw [hv] at hversion
    obtain ⟨e, he⟩ := hversion.none
    exact ⟨e, by simp [he]⟩

end Envelope

end VersionedEnvelope
