import VersionedEnvelope.Verdict

/-!
# The model of the reader

The reader of the tests: a version set that captures the text of its data, and the model that
predicts, from the value of a document alone, what reading the document returns.

* `RawValue` — `serde_json::value::RawValue`, which captures the text of a value.
* `capturedData` — the version set: every version captures its data, every step keeps them.
* `modelRead` — the model, over values.
* `actualRead` — the reader, over bytes, and what is made of its result.
* `envelopes_are_read` — the reader refines the model: on every text of a value whose root has no
  key twice, both say the same, and the captured text is a text of the data.
-/

set_option autoImplicit false

namespace VersionedEnvelope

open Json Ladder

/-! ## Captured data -/

/-- `Box<RawValue>::deserialize`: the text of the value that stands at the cursor. -/
structure RawValue (J : SerdeJson) where
  capture : Cursor → Except J.Error (Bytes × Cursor)
  captures : ∀ {c : Cursor} {j : Json} {r t : Bytes}, ValueAt J.inRange c j r →
    skipWs c.rest = t ++ r → capture c = .ok (t, c.moveTo r)

/-- A value that stands at a cursor has a text. -/
theorem ValueAt.exists_text {inRange : Bytes → Bool} {c : Cursor} {j : Json} {r : Bytes}
    (h : ValueAt inRange c j r) : ∃ t, skipWs c.rest = t ++ r := by
  obtain ⟨t, -, ht, -⟩ := readValue_reads _ _ _ _ h
  exact ⟨t, ht⟩

/-- Capturing the text that is there, by the reference deserializer. -/
def RawValue.reference (inRange : Bytes → Bool) : RawValue (SerdeJson.reference inRange) where
  capture c := SerdeJson.orError ((readValue inRange c.remainingDepth c.rest).map fun (_, r) =>
    ((skipWs c.rest).take ((skipWs c.rest).length - r.length), c.moveTo r))
  captures {c j r t} h ht := by
    have h : readValue inRange c.remainingDepth c.rest = some (j, r) := h
    simp only [h, ht, Option.map_some, List.length_append, Nat.add_sub_cancel, List.take_left,
      SerdeJson.orError]
    rfl

/-- The versions of `Settings`. -/
def SETTINGS_VERSIONS : List UInt32 := [1, 2, 4]

structure CapturedData where
  version : UInt32
  data : Bytes

variable {J : SerdeJson}

/-- `CapturedData::parse`. -/
def CapturedData.parse (raw : RawValue J) (version : UInt32) : J.Seed CapturedData := fun de => do
  let (data, de) ← Exec.lift (raw.capture de)
  pure (⟨version, data⟩, de)

/-- `CapturedData::step`: the next version has the same data. -/
def CapturedData.step (captured : CapturedData) : Step CapturedData Bytes :=
  match SETTINGS_VERSIONS.find? fun next => next > captured.version with
  | some next => .next { captured with version := next }
  | none => .done captured.data

/-- Where a value stands, its text is captured. -/
theorem CapturedData.parse_of_valueAt (raw : RawValue J) {version : UInt32} {c : Cursor} {j : Json}
    {r t : Bytes} (h : ValueAt J.inRange c j r) (ht : skipWs c.rest = t ++ r) :
    parse raw version c = .ok (⟨version, t⟩, c.moveTo r) := by
  rw [parse, raw.captures h ht]
  rfl

/-- `impl VersionSet for CapturedData`. -/
def capturedData (raw : RawValue J) : VersionSet J where
  Value := CapturedData
  Latest := Bytes
  Context := Unit
  typeName := "CapturedData"
  VERSIONS := SETTINGS_VERSIONS
  parse := CapturedData.parse raw
  version captured := captured.version
  step captured _ := captured.step
  wellFormed := rfl

instance (raw : RawValue J) : Unique (capturedData raw).Context := inferInstanceAs (Unique Unit)

section CapturedData

variable (raw : RawValue J)

theorem capturedData_parseContract : (capturedData raw).ParseContract where
  settles {v c j r} _ hj := by
    obtain ⟨t, ht⟩ := hj.exists_text
    have hparse : (capturedData raw).parse v c = .ok (⟨v, t⟩, c.moveTo r) :=
      CapturedData.parse_of_valueAt raw hj ht
    rw [hparse]
    trivial
  oneValue _ hj h := by
    obtain ⟨t, ht⟩ := hj.exists_text
    have hparse := (CapturedData.parse_of_valueAt raw hj ht).symm.trans h
    cases hparse
    rfl
  version _ hj h := by
    obtain ⟨t, ht⟩ := hj.exists_text
    have hparse := (CapturedData.parse_of_valueAt raw hj ht).symm.trans h
    cases hparse
    rfl

/-- All a step of captured data can be. -/
theorem CapturedData.step_cases (captured : CapturedData) :
    (∃ next ∈ SETTINGS_VERSIONS, captured.version < next ∧
      captured.step = .next { captured with version := next }) ∨
    (∀ v ∈ SETTINGS_VERSIONS, v ≤ captured.version) ∧ captured.step = .done captured.data := by
  unfold step
  cases h : SETTINGS_VERSIONS.find? fun next => next > captured.version with
  | some next =>
    exact .inl ⟨next, List.mem_of_find?_eq_some h, by simpa using List.find?_some h, rfl⟩
  | none =>
    refine .inr ⟨fun v hv => ?_, rfl⟩
    simpa using List.find?_eq_none.1 h v hv

theorem capturedData_stepContract : (capturedData raw).StepContract where
  next {x y _} _ h := by
    obtain ⟨next, hmem, hlt, hstep⟩ | ⟨-, hstep⟩ := CapturedData.step_cases x
    · cases hstep.symm.trans h
      exact ⟨hmem, hlt⟩
    · cases hstep.symm.trans h
  failed {x _ _ _} _ h := by
    obtain ⟨next, -, -, hstep⟩ | ⟨-, hstep⟩ := CapturedData.step_cases x
    · cases hstep.symm.trans h
    · cases hstep.symm.trans h
  done {x _ _} hx h := by
    obtain ⟨next, -, -, hstep⟩ | ⟨hle, -⟩ := CapturedData.step_cases x
    · cases hstep.symm.trans h
    · exact le_antisymm ((capturedData raw).le_newest hx) (hle _ (capturedData raw).newest_mem)

/-- **However it climbs, captured data are what was captured.** -/
theorem CapturedData.climbs {x : CapturedData} {r : Except (CapturedData × UInt32 × DynError) Bytes}
    (h : Climbs ((capturedData raw).rung ()) x r) : r = .ok x.data := by
  induction h with
  | @top x l htop =>
    have hdone : x.step = .done l := VersionSet.rung_eq_top.1 htop
    obtain ⟨next, -, -, hstep⟩ | ⟨-, hstep⟩ := CapturedData.step_cases x
    · cases hstep.symm.trans hdone
    · cases hstep.symm.trans hdone
      rfl
  | @broken x f hbroken =>
    have hfailed : x.step = .failed f.1 f.2 := VersionSet.rung_eq_broken.1 hbroken
    obtain ⟨next, -, -, hstep⟩ | ⟨-, hstep⟩ := CapturedData.step_cases x
    · cases hstep.symm.trans hfailed
    · cases hstep.symm.trans hfailed
  | @next x y r hnext _ ih =>
    have hstep' : x.step = .next y := VersionSet.rung_eq_next.1 hnext
    obtain ⟨next, -, -, hstep⟩ | ⟨-, hstep⟩ := CapturedData.step_cases x
    · cases hstep.symm.trans hstep'
      exact ih
    · cases hstep.symm.trans hstep'

/-- Reading captured data of a listed version. -/
theorem CapturedData.readPayload {v : UInt32} (hv : v ∈ SETTINGS_VERSIONS) {c : Cursor} {j : Json}
    {r t : Bytes} (hj : ValueAt J.inRange c j r) (ht : skipWs c.rest = t ++ r) :
    (capturedData raw).readPayload v c () = .ok ⟨t, .envelope v, (capturedData raw).newest⟩ := by
  have hstep := capturedData_stepContract raw
  let captured : (capturedData raw).Value := ⟨v, t⟩
  have hx : (capturedData raw).version captured = v := rfl
  obtain ⟨r, hr⟩ := hstep.exists_climbs () (hx ▸ hv)
  have hup := hstep.upgrade_eq_of_climbs hx hv hr
  rw [CapturedData.climbs raw hr] at hup
  exact VersionSet.readPayload_of_upgrade (CapturedData.parse_of_valueAt raw hj ht) hup

end CapturedData

/-! ## The model -/

structure EnvelopeContents where
  version : UInt32
  data : Json

inductive Refusal where
  | notAnEnvelope (reason : NotAnEnvelopeReason)
  | unknownFields (names : Finset String)
  | badVersion
  | unsupported (found : UInt32)

/-- The members of a root that is an object, and its kind otherwise. -/
def rootMembers : Json → Except NonObjectKind (List (String × Json))
  | .object ms => .ok ms
  | .null => .error .null
  | .bool _ => .error .bool
  | .number _ => .error .number
  | .string _ => .error .string
  | .array _ => .error .array

/-- `Value::as_u64`: integers are kept as integers up to the largest `u64`. -/
def asU64 : Json → Option Nat
  | .number lit => (bareInteger lit).filter fun n => n < UInt64.size
  | _ => none

/-- `u32::try_from` on a `u64`. -/
def u32TryFrom (n : Nat) : Option UInt32 :=
  if n < UInt32.size then some (UInt32.ofNat n) else none

def missing (fields : EnvelopeFieldSet) : Refusal := .notAnEnvelope (.missing fields)

/-- What `read_json::<CapturedData>` should return on a text of the document. -/
def modelRead (document : Json) : Except Refusal EnvelopeContents :=
  match rootMembers document with
  | .error kind => .error (.notAnEnvelope (.nonObjectRoot kind))
  | .ok ms =>
    match ms.lookup "version", ms.lookup "versioned_data" with
    | none, none => .error (missing .versionAndData)
    | none, some _ => .error (missing .version)
    | some _, none => .error (missing .data)
    | some version, some data =>
      let unknown := ((ms.map (·.1)).filter fun key =>
        key ≠ "version" ∧ key ≠ "versioned_data").toFinset
      if unknown ≠ ∅ then .error (.unknownFields unknown)
      else
        match (asU64 version).bind u32TryFrom with
        | none => .error .badVersion
        | some version =>
          if ¬ SETTINGS_VERSIONS.contains version then .error (.unsupported version)
          else .ok ⟨version, data⟩

/-! ## The reader -/

/-- What an error of the reader is for the model.  The panic names the error. -/
def refusal {E : Type} : ReadError E → Exec Refusal EnvelopeContents
  | .envelope (.notAnEnvelope reason) => .err (.notAnEnvelope reason)
  | .envelope (.unknownFields names) => .err (.unknownFields names)
  | .envelope (.version _) => .err .badVersion
  | .unsupportedVersion unsupported => .err (.unsupported unsupported.found)
  | .envelope (.json _) => .panics "a document serde_json wrote cannot fail with Json"
  | .envelope (.duplicateFields _) =>
    .panics "a document serde_json wrote cannot fail with DuplicateFields"
  | .data _ _ => .panics "a document serde_json wrote cannot fail with Data"
  | .conversion _ => .panics "a document serde_json wrote cannot fail with Conversion"

/-- `actual_read`. -/
def actualRead (raw : RawValue J) (bytes : Bytes) : Exec Refusal EnvelopeContents :=
  match (capturedData raw).readJson bytes with
  | .ok read =>
    match read.origin with
    | .envelope version => do
      let data ← Exec.expect (J.document read.value) "the captured data is JSON"
      pure ⟨version, data⟩
    | .untagged _ => .panics "read_json reads only envelopes, not Untagged"
    | .fallback _ => .panics "read_json reads only envelopes, not Fallback"
  | .err e => refusal e
  | .panics m => .panics m
  | .hang => .hang

/-! ## The reader refines the model -/

/-- A `u64` that fits a `u32` is a version number. -/
theorem asU64_bind_u32TryFrom (j : Json) : (asU64 j).bind u32TryFrom = versionNumber j := by
  cases j with
  | number lit =>
    simp only [asU64, versionNumber]
    cases bareInteger lit with
    | none => rfl
    | some n =>
      have hsize : UInt32.size ≤ UInt64.size := by decide
      by_cases hn : n < UInt64.size
      · simp [Option.filter_some, hn, u32TryFrom]
      · have hn' : ¬ n < UInt32.size := by omega
        simp [Option.filter_some, hn, hn']
  | _ => rfl

/-- The model on an object, in the words of the reader. -/
theorem modelRead_object (ms : List (String × Json)) :
    modelRead (.object ms) =
      match ms.lookup VERSION_FIELD, ms.lookup VERSIONED_DATA_FIELD with
      | none, none => .error (missing .versionAndData)
      | none, some _ => .error (missing .version)
      | some _, none => .error (missing .data)
      | some version, some data =>
        if otherKeys (ms.map (·.1)) ≠ ∅ then .error (.unknownFields (otherKeys (ms.map (·.1))))
        else
          match versionNumber version with
          | none => .error .badVersion
          | some version =>
            if version ∉ SETTINGS_VERSIONS then .error (.unsupported version)
            else .ok ⟨version, data⟩ := by
  simp only [modelRead, rootMembers, asU64_bind_u32TryFrom, List.contains_iff_mem]
  rfl

/-- A key is missing exactly when nothing is found under it. -/
theorem count_eq_zero_iff_lookup {β : Type} (k : String) (ms : List (String × β)) :
    (ms.map (·.1)).count k = 0 ↔ ms.lookup k = none := by
  rw [List.count_eq_zero, List.lookup_eq_none_iff]
  simp only [List.mem_map, not_exists, not_and, bne_iff_ne]
  exact ⟨fun h m hm hk => h m hm hk.symm, fun h m hm hk => h m hm hk.symm⟩

/-- Without a key twice, no field is repeated. -/
theorem repeatedFields_eq_none {keys : List String} (h : keys.Nodup) :
    repeatedFields keys = none := by
  have hcount : ∀ k, ¬ 2 ≤ keys.count k := fun k hk => by
    have := List.nodup_iff_count_le_one.1 h k
    omega
  unfold repeatedFields
  simp [hcount, EnvelopeFieldSet.ofBools]

/-- The model on an object whose fields have something said against them. -/
theorem modelRead_of_checkFields {E : Type} {ms : List (String × Json)} {e : EnvelopeError E}
    (hkeys : (ms.map (·.1)).Nodup)
    (he : checkFields (ObjectFields.ofKeys (ms.map (·.1))) = .error e) :
    Exec.lift (modelRead (.object ms)) = refusal (.envelope e) := by
  have hversion := count_eq_zero_iff_lookup VERSION_FIELD ms
  have hdata := count_eq_zero_iff_lookup VERSIONED_DATA_FIELD ms
  rw [checkFields_ofKeys, repeatedFields_eq_none hkeys, missingFields] at he
  rw [modelRead_object]
  cases hv : ms.lookup VERSION_FIELD <;> cases hd : ms.lookup VERSIONED_DATA_FIELD <;>
    simp only [hv, hd, iff_true, reduceCtorEq, iff_false] at hversion hdata <;>
    simp only [hversion, hdata, decide_true, decide_false, EnvelopeFieldSet.ofBools] at he
  · cases he
    rfl
  · cases he
    rfl
  · cases he
    rfl
  · split_ifs at he with hother
    cases he
    simp only [if_pos hother]
    rfl

/-- The model on an envelope. -/
theorem modelRead_of_isEnvelope {bytes : Bytes} {document : Json} {version data : Located Json}
    (h : IsEnvelope J.inRange bytes version data) (hdoc : J.document bytes = some document) :
    modelRead document =
      match versionNumber version.value with
      | none => .error .badVersion
      | some v =>
        if v ∉ SETTINGS_VERSIONS then .error (.unsupported v) else .ok ⟨v, data.value⟩ := by
  rcases h with h | h
  · have hobject : J.document bytes = _ := document_object_iff.2 ⟨_, h, rfl⟩
    cases hdoc.symm.trans hobject
    exact modelRead_object _
  · have hobject : J.document bytes = _ := document_object_iff.2 ⟨_, h, rfl⟩
    cases hdoc.symm.trans hobject
    exact modelRead_object _

/-- The captured text of a value of the root is a document of its own. -/
theorem document_of_valueAt {bytes t r : Bytes} {l : Located Json}
    (h : ValueAt J.inRange (memberCursor bytes l) l.value r) (ht : skipWs l.before = t ++ r) :
    J.document t = some l.value := by
  have hread : readValue J.inRange (recursionLimit - 1) t = some (l.value, []) :=
    readValue_text h ht
  obtain ⟨hread, -⟩ := (readValue_iff_nesting (Nat.sub_le recursionLimit 1)).1 hread
  rw [SerdeJson.document, Json.document, hread]
  rfl

/-- The reader on an envelope. -/
theorem actualRead_of_isEnvelope (raw : RawValue J) {bytes : Bytes} {version data : Located Json}
    (h : IsEnvelope J.inRange bytes version data) :
    actualRead raw bytes =
      match versionNumber version.value with
      | none => .err .badVersion
      | some v =>
        if v ∉ SETTINGS_VERSIONS then .err (.unsupported v) else .ok ⟨v, data.value⟩ := by
  unfold actualRead VersionSet.readJson
  cases hv : versionNumber version.value with
  | none =>
    obtain ⟨e, he⟩ := (Envelope.parse_of_isEnvelope h).2 hv
    rw [VersionSet.readJsonWith_of_parse_err _ he]
    rfl
  | some v =>
    rw [VersionSet.readJsonWith_of_isEnvelope _ h hv fun hmem x c' =>
      (capturedData_parseContract raw).oneValue hmem h.valueAt_data]
    by_cases hmem : v ∈ SETTINGS_VERSIONS
    · obtain ⟨t, ht⟩ := h.valueAt_data.exists_text
      have hpayload : (capturedData raw).readPayload v (memberCursor bytes data) default = _ :=
        CapturedData.readPayload raw hmem h.valueAt_data ht
      have hdocument := document_of_valueAt h.valueAt_data ht
      have hmem' : v ∈ (capturedData raw).VERSIONS := hmem
      simp only [if_pos hmem', not_not.2 hmem, if_false, hpayload, hdocument, Exec.expect_some,
        Exec.ok_bind]
      rfl
    · have hmem' : v ∉ (capturedData raw).VERSIONS := hmem
      simp only [if_neg hmem', hmem, not_false_eq_true, if_true]
      rfl

/-- **The reader refines the model**: on every text of a document whose root has no key twice, what
    is read is what the model predicts from the value of the document. -/
theorem envelopes_are_read (raw : RawValue J) {bytes : Bytes} {document : Json}
    (hdoc : J.document bytes = some document)
    (hkeys : ∀ ms, document = .object ms → (ms.map (·.1)).Nodup) :
    actualRead raw bytes = Exec.lift (modelRead document) := by
  rcases VersionSet.document_cases J bytes with hnone | ⟨j, kind, hj, hkind⟩ | ⟨ls, e, hls, he⟩ |
    ⟨version, data, henv⟩
  · cases hdoc.symm.trans hnone
  · cases hdoc.symm.trans hj
    have hparse := Envelope.parse_of_nonObject hj (VersionSet.rootKind_eq_some.1 hkind)
    unfold actualRead VersionSet.readJson
    rw [VersionSet.readJsonWith_of_parse_err _ hparse]
    cases document <;> cases hkind <;> rfl
  · have hobject : J.document bytes = _ := document_object_iff.2 ⟨ls, hls, rfl⟩
    cases hdoc.symm.trans hobject
    have hparse := VersionSet.parse_of_readMembers hls he
    unfold actualRead VersionSet.readJson
    rw [VersionSet.readJsonWith_of_parse_err _ hparse]
    refine (modelRead_of_checkFields (hkeys _ rfl) ?_).symm
    rw [List.map_map]
    exact he
  · rw [actualRead_of_isEnvelope raw henv, modelRead_of_isEnvelope henv hdoc]
    cases versionNumber version.value with
    | none => rfl
    | some v =>
      simp only
      split_ifs <;> rfl

theorem envelopes_are_read_pair :
    actualRead (RawValue.reference fun _ => true)
        (ascii "\x7b\"versioned_data\": [7, \"a\"] ,\"version\":2\x7d") =
      .ok ⟨2, .array [.number (ascii "7"), .string "a"]⟩ := by
  have hdoc : (SerdeJson.reference fun _ => true).document
      (ascii "\x7b\"versioned_data\": [7, \"a\"] ,\"version\":2\x7d") = some (.object
        [("versioned_data", .array [.number (ascii "7"), .string "a"]),
          ("version", .number (ascii "2"))]) := rfl
  rw [envelopes_are_read _ hdoc fun ms h => by cases h; decide]
  rfl

end VersionedEnvelope
