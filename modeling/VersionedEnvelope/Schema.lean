import VersionedEnvelope.Json.Decimal
import VersionedEnvelope.Json.Schema
import VersionedEnvelope.RoundTrip

/-!
# The schema of an envelope

`WriteEnvelope<T>::json_schema`, and the documents it describes.

* `conforms_version_iff` — the schema of the version admits one version number.
* `conforms_isEnvelope_iff` — the schema describes the envelopes of that version with such data.
* `readJson_settled_iff` — the reader at a fixed version gets to the data of those envelopes.
* `schema_agrees_with_reader` — the schema and the reader draw the same line.
-/

set_option autoImplicit false

namespace VersionedEnvelope

open Json

namespace WriteEnvelope

variable {J : SerdeJson}

def ENVELOPE_DESCRIPTION : String :=
  "A versioned envelope, where `versioned_data` is interpreted according to `version`."

/-- `<u32 as JsonSchema>::json_schema(generator).into_object()`. -/
def u32Schema : SchemaObject Schema :=
  { instanceType := some .integer, format := some "uint32", minimum := some 0 }

/-- The version is specified to be exactly this value. -/
def versionSchema (version : UInt32) : Schema :=
  .object { u32Schema with enumValues := some [.number (decimal version.toNat)] }

/-- `WriteEnvelope<T>::json_schema`; `data` is `generator.subschema_for::<T>()`. -/
def jsonSchema (T : Versioned J) (data : Schema) : Schema :=
  .object
    { description := some ENVELOPE_DESCRIPTION
      instanceType := some .object
      object := some
        { properties := [(VERSION_FIELD, versionSchema T.VERSION), (VERSIONED_DATA_FIELD, data)]
          required := {VERSION_FIELD, VERSIONED_DATA_FIELD}
          additionalProperties := some (.bool false) } }

/-! ## What conforms -/

/-- **The schema of the version admits one version number**, when numbers are spelled as bare
    digits. -/
theorem conforms_version_iff {v : UInt32} {j : Json}
    (hbare : ∀ lit, j = .number lit → ∃ n, bareInteger lit = some n) :
    conforms j (versionSchema v) = true ↔ versionNumber j = some v := by
  cases j with
  | number lit =>
    obtain ⟨n, hn⟩ := hbare lit rfl
    have hvalue := literalValue_of_bareInteger hn
    have hdecimal := literalValue_of_bareInteger (decimal_bareInteger v.toNat)
    have hconforms : conforms (.number lit) (versionSchema v) = true ↔ n = v.toNat := by
      simp [conforms, versionSchema, u32Schema, SchemaObject.admits, hasType, same, atLeast, hvalue,
        hdecimal, Rat.isInt]
    rw [hconforms]
    simp only [versionNumber, hn, Option.bind_some, Option.ite_none_right_eq_some,
      Option.some.injEq]
    constructor
    · rintro rfl
      exact ⟨v.toNat_lt, UInt32.ofNat_toNat⟩
    · rintro ⟨hlt, rfl⟩
      exact (UInt32.toNat_ofNat_of_lt' hlt).symm
  | _ => simp [conforms, versionSchema, u32Schema, SchemaObject.admits, hasType, versionNumber]

/-- An object conforms when it has both fields and no other, and the version and the data
    conform. -/
theorem conforms_object_iff (T : Versioned J) (data : Schema) {ms : List (String × Json)} :
    conforms (.object ms) (jsonSchema T data) = true ↔
      (VERSION_FIELD ∈ ms.map (·.1) ∧ VERSIONED_DATA_FIELD ∈ ms.map (·.1)) ∧
      ∀ m ∈ ms, (m.1 = VERSION_FIELD ∧ conforms m.2 (versionSchema T.VERSION) = true) ∨
        (m.1 = VERSIONED_DATA_FIELD ∧ conforms m.2 data = true) := by
  simp only [conforms, jsonSchema, SchemaObject.admits, hasType, Option.all_some, Option.all_none,
    Bool.and_self, Bool.true_and, Bool.and_eq_true, decide_eq_true_eq, Finset.mem_insert,
    Finset.mem_singleton, forall_eq_or_imp, forall_eq, conformsMembers_iff]
  refine and_congr_right fun _ => forall₂_congr fun (k, x) _ => ?_
  by_cases hv : k = VERSION_FIELD
  · subst hv
    simp [ObjectValidation.schemaOf, (by decide : VERSION_FIELD ≠ VERSIONED_DATA_FIELD)]
  · have hv' : (k == VERSION_FIELD) = false := beq_eq_false_iff_ne.2 hv
    by_cases hd : k = VERSIONED_DATA_FIELD
    · subst hd
      simp [ObjectValidation.schemaOf, List.lookup_cons, hv', hv]
    · have hd' : (k == VERSIONED_DATA_FIELD) = false := beq_eq_false_iff_ne.2 hd
      simp [ObjectValidation.schemaOf, List.lookup_cons, hv, hd, hv', hd', conforms]

/-- **The schema describes the envelopes whose version and whose data conform**, among the objects
    with distinct keys. -/
theorem conforms_isEnvelope_iff (T : Versioned J) (schema : Schema) {bytes : Bytes}
    {ls : List (String × Located Json)} (hls : readMembers J.inRange bytes = some ls)
    (hnodup : (ls.map (·.1)).Nodup) :
    conforms (.object (ls.map fun (k, l) => (k, l.value))) (jsonSchema T schema) = true ↔
      ∃ version data, IsEnvelope J.inRange bytes version data ∧
        conforms version.value (versionSchema T.VERSION) = true ∧
        conforms data.value schema = true := by
  have hfields : VERSION_FIELD ≠ VERSIONED_DATA_FIELD := by decide
  rw [conforms_object_iff T schema, List.map_map]
  constructor
  · rintro ⟨⟨hversion, hdata⟩, hall⟩
    have hkeys : ∀ m ∈ ls, (m.1 = VERSION_FIELD ∧
        conforms m.2.value (versionSchema T.VERSION) = true) ∨
        (m.1 = VERSIONED_DATA_FIELD ∧ conforms m.2.value schema = true) :=
      fun m hm => hall _ (List.mem_map_of_mem hm)
    have hmissing : missingFields (ls.map (·.1)) = none :=
      VersionSet.missingFields_eq_none.2 ⟨hversion, hdata⟩
    have hrepeated : repeatedFields (ls.map (·.1)) = none := by
      refine EnvelopeFieldSet.ofBools_eq_none.2 ⟨?_, ?_⟩
      · simpa using Nat.lt_succ_of_le (List.nodup_iff_count_le_one.1 hnodup VERSION_FIELD)
      · simpa using Nat.lt_succ_of_le (List.nodup_iff_count_le_one.1 hnodup VERSIONED_DATA_FIELD)
    have hother : otherKeys (ls.map (·.1)) = ∅ := by
      refine Finset.eq_empty_of_forall_notMem fun k hk => ?_
      obtain ⟨hmem, hv, hd⟩ := mem_otherKeys.1 hk
      obtain ⟨m, hm, rfl⟩ := List.mem_map.1 hmem
      exact (hkeys m hm).elim (fun h => hv h.1) fun h => hd h.1
    obtain ⟨version, data, henv⟩ := exists_isEnvelope hls hmissing hrepeated hother
    have hmem : (VERSION_FIELD, version) ∈ ls ∧ (VERSIONED_DATA_FIELD, data) ∈ ls := by
      rcases henv with h | h <;> rw [h] at hls <;> cases hls <;> simp
    refine ⟨version, data, henv, ?_, ?_⟩
    · rcases hkeys _ hmem.1 with ⟨-, h⟩ | ⟨h, -⟩
      · exact h
      · exact absurd h hfields
    · rcases hkeys _ hmem.2 with ⟨h, -⟩ | ⟨-, h⟩
      · exact absurd h hfields.symm
      · exact h
  · rintro ⟨version, data, henv | henv, hversion, hdata⟩ <;> rw [henv] at hls <;> cases hls
    · simp [hversion, hdata]
    · simp [hversion, hdata]

/-- Where every value conforms as data, the version decides. -/
theorem conforms_jsonSchema_iff (T : Versioned J) {data : Schema}
    (hdata : ∀ j, conforms j data = true) {bytes : Bytes} {ls : List (String × Located Json)}
    (hls : readMembers J.inRange bytes = some ls) (hnodup : (ls.map (·.1)).Nodup) :
    conforms (.object (ls.map fun (k, l) => (k, l.value))) (jsonSchema T data) = true ↔
      ∃ version data, IsEnvelope J.inRange bytes version data ∧
        conforms version.value (versionSchema T.VERSION) = true := by
  rw [conforms_isEnvelope_iff T data hls hnodup]
  simp only [hdata, and_true]

/-! ## The reader at a fixed version -/

/-- **The reader gets to the data of the envelopes of its version**, and of nothing else. -/
theorem readJson_settled_iff (T : Versioned J) (bytes : Bytes) :
    ((∃ output, T.versionSet.readJson bytes = .ok output) ∨
      ∃ source, T.versionSet.readJson bytes = .err (.data T.VERSION source)) ↔
    ∃ version data, IsEnvelope J.inRange bytes version data ∧
      versionNumber version.value = some T.VERSION := by
  have hread := fun {version data : Located Json} {v : UInt32}
      (henv : IsEnvelope J.inRange bytes version data)
      (hv : versionNumber version.value = some v) =>
    VersionSet.readJsonWith_of_isEnvelope (S := T.versionSet) () henv hv fun hmem _ _ =>
      T.versionSet_parseContract.oneValue hmem henv.valueAt_data
  constructor
  · intro h
    rcases VersionSet.parse_cases J bytes with ⟨e, he⟩ | ⟨version, data, v, henv, hv⟩
    · have hrefused := VersionSet.readJsonWith_of_parse_err (S := T.versionSet) () he
      rcases h with ⟨output, h⟩ | ⟨source, h⟩
      · exact absurd (hrefused.symm.trans h) (by simp)
      · exact absurd (hrefused.symm.trans h) (by simp)
    · refine ⟨version, data, henv, ?_⟩
      by_cases hmem : v ∈ T.versionSet.VERSIONS
      · rw [hv, List.mem_singleton.1 hmem]
      · have hrefused := (hread henv hv).trans (if_neg hmem)
        rcases h with ⟨output, h⟩ | ⟨source, h⟩
        · exact absurd (hrefused.symm.trans h) (by simp)
        · exact absurd (hrefused.symm.trans h) (by simp)
  · rintro ⟨version, data, henv, hv⟩
    have hpayload := (hread henv hv).trans (if_pos (List.mem_singleton_self T.VERSION))
    cases hp : T.deserialize.deserialize (memberCursor bytes data) with
    | ok y =>
      have hparse : T.versionSet.parse T.VERSION (memberCursor bytes data) = .ok y :=
        Exec.lift_eq_ok.2 hp
      have hupgrade : T.versionSet.upgrade y.1 T.VERSION () = .ok y.1 :=
        T.versionSet_latestIs.upgrade_eq y.1 ()
      exact .inl ⟨_, hpayload.trans (VersionSet.readPayload_of_upgrade hparse hupgrade)⟩
    | error e =>
      refine .inr ⟨e, hpayload.trans (VersionSet.readPayload_of_err () ?_)⟩
      exact Exec.lift_eq_err.2 hp

/-! ## The schema and the reader -/

/-- **The schema and the reader draw the same line.**  Among the documents whose root has distinct
    keys and whose version, if it is a number, is spelled as bare digits, those that conform to
    the schema are those that the reader accepts up to their data. -/
theorem schema_agrees_with_reader (T : Versioned J) {data : Schema}
    (hdata : ∀ j, conforms j data = true) {bytes : Bytes} {root : Json}
    (hdoc : J.document bytes = some root)
    (hnodup : ∀ ms, root = .object ms → (ms.map (·.1)).Nodup)
    (hbare : ∀ ms lit, root = .object ms → (VERSION_FIELD, .number lit) ∈ ms →
      lit ≠ [] ∧ ∀ b ∈ lit, isDigit b = true) :
    conforms root (jsonSchema T data) = true ↔
      (∃ output, T.versionSet.readJson bytes = .ok output) ∨
        ∃ source, T.versionSet.readJson bytes = .err (.data T.VERSION source) := by
  rw [readJson_settled_iff]
  cases root with
  | object ms =>
    obtain ⟨ls, hls, rfl⟩ := document_object_iff.1 hdoc
    have hnodup := hnodup _ rfl
    rw [List.map_map] at hnodup
    rw [conforms_jsonSchema_iff T hdata hls hnodup]
    refine exists₂_congr fun version data => and_congr_right fun henv => conforms_version_iff ?_
    intro lit hlit
    have hmem : (VERSION_FIELD, version) ∈ ls := by
      rcases henv with h | h <;> rw [h] at hls <;> cases hls <;> simp
    have hdigits := hbare _ lit rfl
      (hlit ▸ List.mem_map_of_mem (f := fun (k, l) => (k, l.value)) hmem)
    exact ⟨_, if_pos ⟨hdigits.1, List.all_eq_true.2 hdigits.2⟩⟩
  | _ =>
    refine iff_of_false (by simp [conforms, jsonSchema, SchemaObject.admits, hasType]) ?_
    rintro ⟨version, data, henv, -⟩
    obtain ⟨ms, hobject, -⟩ := checkFields_of_isEnvelope (E := J.Error) henv
    exact absurd (hdoc.symm.trans hobject) (by simp)

theorem schema_agrees_with_reader_counter :
    conforms (.object
        [(VERSION_FIELD, .number (ascii "4")), (VERSIONED_DATA_FIELD, .number (ascii "7"))])
        (jsonSchema (.counter 4) (.bool true)) = true ∧
      (Versioned.counter 4).versionSet.readJson (envelopeText 4 (ascii "7")) =
        .ok ⟨(7 : UInt32), .envelope 4, 4⟩ := by
  have hread : (Versioned.counter 4).versionSet.readJson (envelopeText 4 (ascii "7")) =
      .ok ⟨(7 : UInt32), .envelope 4, 4⟩ := rfl
  have hdoc : (SerdeJson.reference fun _ => true).document (envelopeText 4 (ascii "7")) =
      some (.object [(VERSION_FIELD, .number (ascii "4")),
        (VERSIONED_DATA_FIELD, .number (ascii "7"))]) := rfl
  refine ⟨(schema_agrees_with_reader (.counter 4) (fun j => by cases j <;> rfl) hdoc ?_ ?_).2
    (.inl ⟨_, hread⟩), hread⟩
  · intro ms hms
    cases hms
    decide
  · intro ms lit hms hmem
    cases hms
    simp only [List.mem_cons, Prod.mk.injEq, Json.number.injEq, List.not_mem_nil, or_false] at hmem
    rcases hmem with ⟨-, rfl⟩ | ⟨-, rfl⟩ <;> exact ⟨by decide, List.all_eq_true.1 (by decide)⟩

end WriteEnvelope

end VersionedEnvelope
