import VersionedEnvelope.Schema

/-!
# Schemas with the schema of the payload

The schema of an envelope contains that of its payload, which may be any.  Where the latter is
right about the data of a document, the former is right about the document, and what the writer
writes conforms.

* `DescribesData` — a schema is right about the data of a document, if it is an envelope.
* `conforms_iff_readJson_ok` — such a document conforms exactly when it is read.
* `written_conforms_iff` — an envelope that is written conforms exactly when its payload does.
-/

set_option autoImplicit false

namespace VersionedEnvelope

open Json

namespace WriteEnvelope

variable {J : SerdeJson} {T : Versioned J} {schema : Schema}

/-- The schema is right about the data of the document, if it is an envelope: they conform exactly
    when the type deserializes them where they stand. -/
def DescribesData (schema : Schema) (T : Versioned J) (bytes : Bytes) : Prop :=
  ∀ ⦃version data : Located Json⦄, IsEnvelope J.inRange bytes version data →
    (conforms data.value schema = true ↔
      ∃ x c', T.deserialize.deserialize (memberCursor bytes data) = .ok (x, c'))

/-- The root has no key twice, and its version, if it is a number, is spelled as bare digits. -/
structure Plain (root : Json) : Prop where
  distinct : ∀ ms, root = .object ms → (ms.map (·.1)).Nodup
  bare : ∀ ms lit, root = .object ms → (VERSION_FIELD, .number lit) ∈ ms →
    lit ≠ [] ∧ ∀ b ∈ lit, isDigit b = true

/-- **A document conforms when it is an envelope** of the version, with data that conform. -/
theorem conforms_iff_isEnvelope (T : Versioned J) (schema : Schema) {bytes : Bytes} {root : Json}
    (hdoc : J.document bytes = some root) (hplain : Plain root) :
    conforms root (jsonSchema T schema) = true ↔
      ∃ version data, IsEnvelope J.inRange bytes version data ∧
        versionNumber version.value = some T.VERSION ∧ conforms data.value schema = true := by
  cases root with
  | object ms =>
    obtain ⟨ls, hls, rfl⟩ := document_object_iff.1 hdoc
    have hnodup := hplain.distinct _ rfl
    rw [List.map_map] at hnodup
    rw [conforms_isEnvelope_iff T schema hls hnodup]
    refine exists₂_congr fun version data => and_congr_right fun henv =>
      and_congr_left fun _ => conforms_version_iff ?_
    intro lit hlit
    have hmem : (VERSION_FIELD, version) ∈ ls := by
      rcases henv with h | h <;> rw [h] at hls <;> cases hls <;> simp
    have hdigits := hplain.bare _ lit rfl
      (hlit ▸ List.mem_map.2 ⟨_, hmem, rfl⟩)
    exact ⟨_, if_pos ⟨hdigits.1, List.all_eq_true.2 hdigits.2⟩⟩
  | _ =>
    refine iff_of_false (by simp [conforms, jsonSchema, SchemaObject.admits, hasType]) ?_
    rintro ⟨version, data, henv, -⟩
    obtain ⟨ms, hobject, -⟩ := checkFields_of_isEnvelope (E := J.Error) henv
    exact absurd (hdoc.symm.trans hobject) (by simp)

/-- At a fixed version, an envelope of that version is read exactly when its data are. -/
theorem readJson_ok_iff (T : Versioned J) {bytes : Bytes} {version data : Located Json}
    (henv : IsEnvelope J.inRange bytes version data)
    (hversion : versionNumber version.value = some T.VERSION) :
    (∃ output, T.versionSet.readJson bytes = .ok output) ↔
      ∃ x c', T.deserialize.deserialize (memberCursor bytes data) = .ok (x, c') := by
  have hmem : T.VERSION ∈ T.versionSet.VERSIONS := List.mem_singleton_self T.VERSION
  have hread : T.versionSet.readJson bytes =
      T.versionSet.readPayload T.VERSION (memberCursor bytes data) () :=
    (VersionSet.readJsonWith_of_isEnvelope () henv hversion fun hmem _ _ =>
      T.versionSet_parseContract.oneValue hmem henv.valueAt_data).trans (if_pos hmem)
  rw [hread]
  cases hp : T.deserialize.deserialize (memberCursor bytes data) with
  | ok y =>
    have hparse : T.versionSet.parse T.VERSION (memberCursor bytes data) = .ok y :=
      Exec.lift_eq_ok.2 hp
    have hupgrade := T.versionSet_latestIs.upgrade_eq y.1 ()
    exact iff_of_true ⟨_, VersionSet.readPayload_of_upgrade hparse hupgrade⟩ ⟨y.1, y.2, rfl⟩
  | error e =>
    have hparse : T.versionSet.parse T.VERSION (memberCursor bytes data) = .err e :=
      Exec.lift_eq_err.2 hp
    rw [VersionSet.readPayload_of_err () hparse]
    refine iff_of_false ?_ ?_
    · rintro ⟨output, h⟩
      cases h
    · rintro ⟨x, c', h⟩
      cases h

/-- **The documents that conform are those that are read**, where the schema of the payload is
    right about their data. -/
theorem conforms_iff_readJson_ok {bytes : Bytes} {root : Json}
    (hschema : DescribesData schema T bytes) (hdoc : J.document bytes = some root)
    (hplain : Plain root) :
    conforms root (jsonSchema T schema) = true ↔
      ∃ output, T.versionSet.readJson bytes = .ok output := by
  rw [conforms_iff_isEnvelope T schema hdoc hplain]
  constructor
  · rintro ⟨version, data, henv, hversion, hdata⟩
    exact (readJson_ok_iff T henv hversion).2 ((hschema henv).1 hdata)
  · intro h
    obtain ⟨version, data, henv, hversion⟩ := (readJson_settled_iff T bytes).1 (.inl h)
    exact ⟨version, data, henv, hversion,
      (hschema henv).2 ((readJson_ok_iff T henv hversion).1 h)⟩

/-! ## The envelope of a payload -/

/-- A document is an envelope in one way. -/
theorem isEnvelope_unique {bytes : Bytes} {version data version' data' : Located Json}
    (h : IsEnvelope J.inRange bytes version data)
    (h' : IsEnvelope J.inRange bytes version' data') : version = version' ∧ data = data' := by
  have hfields : VERSION_FIELD ≠ VERSIONED_DATA_FIELD := by decide
  rcases h with h | h <;> rcases h' with h' | h' <;> have heq := Option.some.inj (h.symm.trans h')
  · cases heq
    exact ⟨rfl, rfl⟩
  · simp [hfields] at heq
  · simp [hfields.symm] at heq
  · cases heq
    exact ⟨rfl, rfl⟩

/-- A version number that is a number is spelled as bare digits. -/
theorem bare_of_versionNumber {lit : Bytes} {v : UInt32}
    (h : versionNumber (.number lit) = some v) : lit ≠ [] ∧ ∀ b ∈ lit, isDigit b = true := by
  obtain ⟨n, hn, -⟩ := Option.bind_eq_some_iff.1 h
  unfold bareInteger at hn
  split_ifs at hn with hdigits
  exact ⟨hdigits.1, List.all_eq_true.1 hdigits.2⟩

/-- The root of an envelope is plain. -/
theorem plain_of_isEnvelope {bytes : Bytes} {version data : Located Json} {v : UInt32}
    (henv : IsEnvelope J.inRange bytes version data)
    (hversion : versionNumber version.value = some v) :
    ∃ root, J.document bytes = some root ∧ Plain root := by
  have hfields : VERSION_FIELD ≠ VERSIONED_DATA_FIELD := by decide
  rcases henv with h | h
  · refine ⟨_, document_object_iff.2 ⟨_, h, rfl⟩, ?_, ?_⟩
    · rintro _ ⟨⟩
      simpa using hfields
    · rintro _ lit ⟨⟩ hmem
      simp only [List.map_cons, List.map_nil, List.mem_cons, Prod.mk.injEq, List.not_mem_nil,
        or_false, hfields, false_and, true_and] at hmem
      exact bare_of_versionNumber (hmem ▸ hversion)
  · refine ⟨_, document_object_iff.2 ⟨_, h, rfl⟩, ?_, ?_⟩
    · rintro _ ⟨⟩
      simpa using hfields.symm
    · rintro _ lit ⟨⟩ hmem
      simp only [List.map_cons, List.map_nil, List.mem_cons, Prod.mk.injEq, List.not_mem_nil,
        or_false, hfields, false_and, false_or, true_and] at hmem
      exact bare_of_versionNumber (hmem ▸ hversion)

/-- The data of an envelope that is written are the payload. -/
theorem data_of_envelopeText {v : UInt32} {d : Bytes} {j : Json} (hd : J.document d = some j)
    (hnesting : j.nesting ≤ 126) {version data : Located Json}
    (h : IsEnvelope J.inRange (envelopeText v d) version data) :
    versionNumber version.value = some v ∧ data.value = j := by
  obtain ⟨version', data', henv, hversion, t, ⟨j₁, r₁, hj₁, ht₁⟩, ⟨j₂, r₂, hj₂, ht₂⟩⟩ :=
    envelopeText_isEnvelope v hd hnesting
  obtain ⟨rfl, rfl⟩ := isEnvelope_unique h henv
  have hj : j₁ = j := by
    obtain ⟨⟨j', r⟩, hread, hend⟩ := Option.bind_eq_some_iff.1 hd
    simp only [Option.ite_none_right_eq_some, Option.some.injEq] at hend
    rw [(readValue_unique hj₁ hread).1, hend.2]
  refine ⟨hversion, ?_⟩
  rw [← hj, TextAt.unique hj₁ ht₁ hj₂ ht₂]
  exact (readValue_unique h.valueAt_data hj₂).1

/-- A type read by the reference deserializer takes the values that mean something to it. -/
theorem reference_ok_iff {U : Type} {inRange : Bytes → Bool} {ofJson : Json → Option U}
    {c : Cursor} {j : Json} {r : Bytes} (h : ValueAt inRange c j r) :
    (∃ x c', (Deserialize.reference inRange ofJson).deserialize c = .ok (x, c')) ↔
      (ofJson j).isSome = true := by
  have hread : readValue inRange c.remainingDepth c.rest = some (j, r) := h
  simp only [Deserialize.reference, hread, Option.bind_some]
  cases ofJson j with
  | none => exact iff_of_false (by rintro ⟨x, c', ⟨⟩⟩) (by simp)
  | some x => exact iff_of_true ⟨x, _, rfl⟩ rfl

/-- A schema that is right about a value, wherever it stands, is right about the data of the
    envelope of that value. -/
theorem describesData_envelopeText {v : UInt32} {d : Bytes} {j : Json} (hd : J.document d = some j)
    (hnesting : j.nesting ≤ 126)
    (hj : ∀ c r, ValueAt J.inRange c j r →
      (conforms j schema = true ↔ ∃ x c', T.deserialize.deserialize c = .ok (x, c'))) :
    DescribesData schema T (envelopeText v d) := by
  intro version data henv
  obtain ⟨-, hdata⟩ := data_of_envelopeText hd hnesting henv
  rw [hdata]
  exact hj _ _ (hdata ▸ henv.valueAt_data)

/-- A natural number conforms to the schema of `u32`, which has no upper bound. -/
theorem conforms_u32Schema (n : Nat) :
    conforms (.number (decimal n)) (.object u32Schema) = true := by
  have hvalue := literalValue_of_bareInteger (decimal_bareInteger n)
  simp [conforms, u32Schema, SchemaObject.admits, hasType, atLeast, hvalue, Rat.isInt]

/-- The schema of `u32` and its deserializer, on a number in range and on a boolean. -/
theorem u32Schema_describes {n : Nat} (hn : n < UInt32.size) (v : UInt32) {j : Json}
    (hj : j = .number (decimal n) ∨ ∃ b, j = .bool b) {c : Cursor} {r : Bytes}
    (h : ValueAt (fun _ => true) c j r) :
    conforms j (.object u32Schema) = true ↔
      ∃ x c', (Versioned.counter v).deserialize.deserialize c = .ok (x, c') := by
  refine Iff.trans ?_ (reference_ok_iff h).symm
  rcases hj with rfl | ⟨b, rfl⟩
  · refine iff_of_true (conforms_u32Schema n) ?_
    simp only [versionNumber, decimal_bareInteger, Option.bind_some]
    rw [if_pos hn]
    rfl
  · exact iff_of_false (by simp [conforms, u32Schema, SchemaObject.admits, hasType])
      Bool.false_ne_true

/-- The envelope of version 4 with the data `j`. -/
def counterEnvelope (j : Json) : Json :=
  .object [(VERSION_FIELD, .number (ascii "4")), (VERSIONED_DATA_FIELD, j)]

theorem counterEnvelope_plain {j : Json} (hj : ∀ lit, j = .number lit →
    lit ≠ [] ∧ ∀ b ∈ lit, isDigit b = true) : Plain (counterEnvelope j) where
  distinct := by
    rintro _ ⟨⟩
    have hfields : VERSION_FIELD ≠ VERSIONED_DATA_FIELD := by decide
    simpa using hfields
  bare := by
    rintro _ lit ⟨⟩ hmem
    simp only [List.mem_cons, Prod.mk.injEq, List.not_mem_nil, or_false] at hmem
    rcases hmem with ⟨-, hlit⟩ | ⟨-, hlit⟩
    · cases hlit
      exact ⟨by decide, List.all_eq_true.1 (by decide)⟩
    · exact hj lit hlit.symm

/-- The envelope of a counter conforms and is read; with a boolean for its data, neither. -/
theorem conforms_iff_readJson_ok_counter :
    (conforms (counterEnvelope (.number (ascii "7")))
        (jsonSchema (.counter 4) (.object u32Schema)) = true ∧
      (Versioned.counter 4).versionSet.readJson (envelopeText 4 (ascii "7")) =
        .ok ⟨(7 : UInt32), .envelope 4, 4⟩) ∧
    conforms (counterEnvelope (.bool true)) (jsonSchema (.counter 4) (.object u32Schema)) = false ∧
      (Versioned.counter 4).versionSet.readJson (envelopeText 4 (ascii "true")) =
        .err (.data 4 ()) := by
  have hread : (Versioned.counter 4).versionSet.readJson (envelopeText 4 (ascii "7")) =
      .ok ⟨(7 : UInt32), .envelope 4, 4⟩ := rfl
  have hrefused : (Versioned.counter 4).versionSet.readJson (envelopeText 4 (ascii "true")) =
      .err (.data 4 ()) := rfl
  have hconforms : conforms (counterEnvelope (.number (ascii "7")))
      (jsonSchema (.counter 4) (.object u32Schema)) = true ↔ ∃ output,
      (Versioned.counter 4).versionSet.readJson (envelopeText 4 (ascii "7")) = .ok output := by
    refine conforms_iff_readJson_ok (describesData_envelopeText rfl (by simp [nesting])
      fun _ _ => u32Schema_describes (n := 7) (by decide) 4 (.inl rfl)) rfl
      (counterEnvelope_plain ?_)
    rintro lit ⟨⟩
    exact ⟨by decide, List.all_eq_true.1 (by decide)⟩
  have hconforms' : conforms (counterEnvelope (.bool true))
      (jsonSchema (.counter 4) (.object u32Schema)) = true ↔ ∃ output,
      (Versioned.counter 4).versionSet.readJson (envelopeText 4 (ascii "true")) = .ok output :=
    conforms_iff_readJson_ok (describesData_envelopeText rfl (by simp [nesting])
      fun _ _ => u32Schema_describes (n := 0) (by decide) 4 (.inr ⟨true, rfl⟩)) rfl
      (counterEnvelope_plain (by rintro lit ⟨⟩))
  refine ⟨⟨hconforms.2 ⟨_, hread⟩, hread⟩, Bool.eq_false_iff.2 fun h => ?_, hrefused⟩
  obtain ⟨output, houtput⟩ := hconforms'.1 h
  cases hrefused.symm.trans houtput

/-! ## What is written -/

/-- **An envelope that is written conforms exactly when its payload does**, whatever the schema of
    the payload is. -/
theorem written_conforms_iff (schema : Schema) {x : T.Carrier} {d : Bytes} {j : Json}
    (hx : T.serialize x = .ok d) (hd : J.document d = some j) (hnesting : j.nesting ≤ 126) :
    ∃ text root, (WriteEnvelope.new x).toVec = .ok text ∧ J.document text = some root ∧
      (conforms root (jsonSchema T schema) = true ↔ conforms j schema = true) := by
  obtain ⟨version, data, henv, -⟩ := envelopeText_isEnvelope T.VERSION hd hnesting
  obtain ⟨hversion, hdata⟩ := data_of_envelopeText hd hnesting henv
  obtain ⟨root, hroot, hplain⟩ := plain_of_isEnvelope henv hversion
  refine ⟨_, root, WriteEnvelope.toVec_new hx, hroot, ?_⟩
  rw [conforms_iff_isEnvelope T schema hroot hplain]
  constructor
  · rintro ⟨version', data', henv', -, hconforms⟩
    exact (data_of_envelopeText hd hnesting henv').2 ▸ hconforms
  · intro hconforms
    exact ⟨version, data, henv, hversion, hdata ▸ hconforms⟩

theorem written_conforms_iff_counter :
    ∃ text root, (WriteEnvelope.new (T := Versioned.counter 4) (7 : UInt32)).toVec = .ok text ∧
      (SerdeJson.reference fun _ => true).document text = some root ∧
      conforms (.number (decimal 7)) (.object u32Schema) = true ∧
      conforms root (jsonSchema (.counter 4) (.object u32Schema)) = true := by
  obtain ⟨text, root, htext, hroot, hiff⟩ := written_conforms_iff (T := Versioned.counter 4)
    (.object u32Schema) (x := (7 : UInt32)) (d := decimal 7) rfl rfl (by simp [nesting])
  exact ⟨text, root, htext, hroot, conforms_u32Schema 7, hiff.2 (conforms_u32Schema 7)⟩

end WriteEnvelope

end VersionedEnvelope
