import VersionedEnvelope.Read

/-!
# The verdict on a document

What reading a document as an envelope should come to, said over the JSON grammar alone: one
table, from the root of the document down to its payload.  The three passes of the reader agree
with it.

* `verdict` — the table.
* `readJsonWith_verdict` — the reader returns the first line of the table that applies, and an
  upgraded payload is the climb of the conversion ladder.
* `fallback_gating` — a fallback runs on valid JSON that lacks one of the two fields, and on
  nothing else.
-/

set_option autoImplicit false

namespace VersionedEnvelope

open Json Ladder

/-! ## The table -/

/-- The kind of a root that is not an object. -/
def rootKind : Json → Option NonObjectKind
  | .null => some .null
  | .bool _ => some .bool
  | .number _ => some .number
  | .string _ => some .string
  | .array _ => some .array
  | .object _ => none

namespace VersionSet

variable {J : SerdeJson} (S : VersionSet J)

/-- What a document is: refused, up to what `serde_json` says, or a payload of some version. -/
inductive Verdict (S : VersionSet J) where
  | refused (e : ReadError Unit)
  | payload (version : UInt32) (value : S.Value)
  /-- The callback did not return. -/
  | stuck

/-- The verdict on an envelope: what is wrong with its version, and then with its data. -/
def envelopeVerdict (bytes : Bytes) (version data : Located Json) : S.Verdict :=
  match versionNumber version.value with
  | none => .refused (.envelope (.version ()))
  | some v =>
    if v ∉ S.VERSIONS then .refused (.unsupportedVersion ⟨v, S.VERSIONS⟩)
    else
      match S.parse v (memberCursor bytes data) with
      | .ok (value, _) => .payload v value
      | .err _ => .refused (.data v ())
      | .panics _ => .stuck
      | .hang => .stuck

/-- The verdict on an object with these members: what is missing, what is repeated, what is
    unknown, and then the version and the data. -/
def objectVerdict (bytes : Bytes) (members : List (String × Located Json)) : S.Verdict :=
  let keys := members.map (·.1)
  match missingFields keys, repeatedFields keys with
  | some fields, _ => .refused (.envelope (.notAnEnvelope (.missing fields)))
  | none, some fields => .refused (.envelope (.duplicateFields fields))
  | none, none =>
    if otherKeys keys ≠ ∅ then .refused (.envelope (.unknownFields (otherKeys keys)))
    else
      match members.lookup VERSION_FIELD, members.lookup VERSIONED_DATA_FIELD with
      | some version, some data => S.envelopeVerdict bytes version data
      | _, _ => .stuck

/-- **The verdict on a document.** -/
def verdict (bytes : Bytes) : S.Verdict :=
  match J.document bytes with
  | none => .refused (.envelope (.json ()))
  | some root =>
    match rootKind root with
    | some kind => .refused (.envelope (.notAnEnvelope (.nonObjectRoot kind)))
    | none =>
      match readMembers J.inRange bytes with
      | some members => S.objectVerdict bytes members
      | none => .stuck

/-- The result of reading a payload of version `v` that climbs to `r`. -/
def outcome (v : UInt32) : Except (S.Value × UInt32 × DynError) S.Latest →
    Exec (ReadError J.Error) (ReadOutput S.Latest)
  | .ok l => .ok ⟨l, .envelope v, S.newest⟩
  | .error (y, toVersion, source) => .err (.conversion ⟨v, S.version y, toVersion, source⟩)

@[simp] theorem outcome_ok (v : UInt32) (l : S.Latest) :
    S.outcome v (.ok l) = .ok ⟨l, .envelope v, S.newest⟩ := rfl
@[simp] theorem outcome_error (v toVersion : UInt32) (y : S.Value) (source : DynError) :
    S.outcome v (.error (y, toVersion, source)) =
      .err (.conversion ⟨v, S.version y, toVersion, source⟩) := rfl

/-- A result is what the verdict says: the error, up to what `serde_json` says, or the climb of
    the payload. -/
def Verdict.Returns {S : VersionSet J} (cx : S.Context)
    (result : Exec (ReadError J.Error) (ReadOutput S.Latest)) : S.Verdict → Prop
  | .refused e => ∃ e', result = .err e' ∧ e'.map (fun _ => ()) = e
  | .payload v x => ∃ r, Climbs (S.rung cx) x r ∧ result = S.outcome v r
  | .stuck => False

/-! ## The reader keeps to the table -/

variable {S} {bytes : Bytes}

theorem rootKind_eq_some {j : Json} {kind : NonObjectKind} :
    rootKind j = some kind ↔ Document.ofJson j = .nonObject kind := by
  cases j <;> simp [rootKind, Document.ofJson]

/-- On a payload that parses, the reader returns its climb. -/
theorem readPayload_of_ok (cx : S.Context) (hstep : S.StepContract) {v : UInt32} {c c' : Cursor}
    {x : S.Value} (hv : v ∈ S.VERSIONS) (hparse : S.parse v c = .ok (x, c'))
    (hx : S.version x = v) :
    ∃ r, Climbs (S.rung cx) x r ∧ S.readPayload v c cx = S.outcome v r := by
  obtain ⟨r, hr⟩ := hstep.exists_climbs cx (hx ▸ hv)
  refine ⟨r, hr, ?_⟩
  simp only [readPayload, hparse, Exec.mapErr_ok, Exec.ok_bind,
    hstep.upgrade_eq_of_climbs hx hv hr]
  cases r <;> rfl

/-- The verdict on an envelope is the verdict on its version and its data. -/
theorem verdict_of_isEnvelope {version data : Located Json}
    (h : IsEnvelope J.inRange bytes version data) :
    S.verdict bytes = S.envelopeVerdict bytes version data := by
  have hroot : ∀ ls, readMembers J.inRange bytes = some ls →
      S.verdict bytes = S.objectVerdict bytes ls := by
    intro ls hls
    have hdoc := document_object_iff.2 ⟨ls, hls, rfl⟩
    simp only [verdict, SerdeJson.document, hdoc, rootKind, hls]
  rcases h with h | h
  · rw [hroot _ h]; rfl
  · rw [hroot _ h]; rfl

/-- What the fields of an object say against it is what the reader says. -/
theorem objectVerdict_of_checkFields {ls : List (String × Located Json)}
    {e : EnvelopeError J.Error}
    (he : checkFields (ObjectFields.ofKeys (ls.map (·.1))) = .error e) :
    S.objectVerdict bytes ls = .refused (.envelope (e.map fun _ => ())) := by
  rw [checkFields_ofKeys] at he
  unfold objectVerdict
  rcases hmissing : missingFields (ls.map (·.1)) with _ | fields
  · rcases hrepeated : repeatedFields (ls.map (·.1)) with _ | fields
    · simp only [hmissing, hrepeated] at he
      split_ifs at he with hother
      · cases he
        simp only [hmissing, hrepeated, if_pos hother, EnvelopeError.map]
    · simp only [hmissing, hrepeated, Except.error.injEq] at he
      subst he
      simp only [hmissing, hrepeated, EnvelopeError.map]
  · simp only [hmissing, Except.error.injEq] at he
    subst he
    simp only [hmissing, EnvelopeError.map]

/-- An object whose fields have nothing said against them is an envelope. -/
theorem exists_isEnvelope_of_checkFields {ls : List (String × Located Json)}
    (hls : readMembers J.inRange bytes = some ls)
    (h : checkFields (E := J.Error) (ObjectFields.ofKeys (ls.map (·.1))) = .ok ()) :
    ∃ version data, IsEnvelope J.inRange bytes version data := by
  rw [checkFields_ofKeys] at h
  rcases hmissing : missingFields (ls.map (·.1)) with _ | fields
  · rcases hrepeated : repeatedFields (ls.map (·.1)) with _ | fields
    · simp only [hmissing, hrepeated] at h
      split_ifs at h with hother
      exact exists_isEnvelope hls hmissing hrepeated (not_not.1 hother)
    · simp [hmissing, hrepeated] at h
  · simp [hmissing] at h

/-- The three things a document can be for the first pass. -/
theorem document_cases (J : SerdeJson) (bytes : Bytes) :
    J.document bytes = none ∨
    (∃ j kind, J.document bytes = some j ∧ rootKind j = some kind) ∨
    (∃ ls e, readMembers J.inRange bytes = some ls ∧
      checkFields (ObjectFields.ofKeys (ls.map (·.1))) = .error (e : EnvelopeError J.Error)) ∨
    (∃ version data, IsEnvelope J.inRange bytes version data) := by
  cases hdoc : J.document bytes with
  | none => exact .inl rfl
  | some j =>
    cases hkind : rootKind j with
    | some kind => exact .inr (.inl ⟨j, kind, rfl, hkind⟩)
    | none =>
      cases j with
      | object ms =>
        obtain ⟨ls, hls, rfl⟩ := document_object_iff.1 hdoc
        cases he : checkFields (E := J.Error) (ObjectFields.ofKeys (ls.map (·.1))) with
        | error e => exact .inr (.inr (.inl ⟨ls, e, hls, he⟩))
        | ok u => exact .inr (.inr (.inr (exists_isEnvelope_of_checkFields hls he)))
      | _ => cases hkind

/-- Where the fields of an object have something said against them, so does the reader. -/
theorem parse_of_readMembers {ls : List (String × Located Json)} {e : EnvelopeError J.Error}
    (hls : readMembers J.inRange bytes = some ls)
    (he : checkFields (ObjectFields.ofKeys (ls.map (·.1))) = .error e) :
    Envelope.parse J bytes = .err e := by
  refine Envelope.parse_of_checkFields (document_object_iff.2 ⟨ls, hls, rfl⟩) ?_
  rw [List.map_map]
  exact he

/-- The reader on an envelope. -/
theorem returns_of_isEnvelope (hparse : S.ParseContract) (hstep : S.StepContract)
    (cx : S.Context) {version data : Located Json}
    (h : IsEnvelope J.inRange bytes version data) :
    (S.verdict bytes).Returns cx (S.readJsonWith bytes cx) := by
  rw [verdict_of_isEnvelope h, envelopeVerdict]
  cases hv : versionNumber version.value with
  | none =>
    obtain ⟨e, he⟩ := (Envelope.parse_of_isEnvelope h).2 hv
    exact ⟨_, readJsonWith_of_parse_err cx he, rfl⟩
  | some v =>
    have hread := readJsonWith_of_isEnvelope (S := S) cx h hv
      fun hmem x c' => hparse.oneValue hmem h.valueAt_data
    by_cases hmem : v ∈ S.VERSIONS
    · rw [if_pos hmem] at hread
      simp only [hmem, not_true_eq_false, if_false]
      rcases (hparse.settles hmem h.valueAt_data).cases with ⟨⟨x, c'⟩, hp⟩ | ⟨e, hp⟩
      · simp only [hp]
        obtain ⟨r, hr, heq⟩ := readPayload_of_ok cx hstep hmem hp
          (hparse.version hmem h.valueAt_data hp)
        exact ⟨r, hr, hread.trans heq⟩
      · simp only [hp]
        exact ⟨.data v e, hread.trans (readPayload_of_err cx hp), rfl⟩
    · rw [if_neg hmem] at hread
      simp only [hmem, not_false_eq_true, if_true]
      exact ⟨_, hread, rfl⟩

/-- **The reader keeps to the table.** -/
theorem returns_verdict (hparse : S.ParseContract) (hstep : S.StepContract) (bytes : Bytes)
    (cx : S.Context) : (S.verdict bytes).Returns cx (S.readJsonWith bytes cx) := by
  rcases document_cases J bytes with hdoc | ⟨j, kind, hdoc, hkind⟩ | ⟨ls, e, hls, he⟩ |
    ⟨version, data, henv⟩
  · obtain ⟨e, he⟩ := Envelope.parse_of_not_document hdoc
    simp only [verdict, hdoc]
    exact ⟨_, readJsonWith_of_parse_err cx he, rfl⟩
  · have he := Envelope.parse_of_nonObject hdoc (rootKind_eq_some.1 hkind)
    simp only [verdict, hdoc, hkind]
    exact ⟨_, readJsonWith_of_parse_err cx he, rfl⟩
  · have hdoc : J.document bytes = _ := document_object_iff.2 ⟨ls, hls, rfl⟩
    simp only [verdict, hdoc, rootKind, hls, objectVerdict_of_checkFields he]
    exact ⟨_, readJsonWith_of_parse_err cx (parse_of_readMembers hls he), rfl⟩
  · exact returns_of_isEnvelope hparse hstep cx henv

/-- The bytes are refused before any callback, or are an envelope of some version. -/
theorem parse_cases (J : SerdeJson) (bytes : Bytes) :
    (∃ e, Envelope.parse J bytes = .err e) ∨ ∃ version data v,
      IsEnvelope J.inRange bytes version data ∧ versionNumber version.value = some v := by
  rcases document_cases J bytes with hdoc | ⟨j, kind, hdoc, hkind⟩ | ⟨ls, e, hls, he⟩ |
    ⟨version, data, henv⟩
  · obtain ⟨e, he⟩ := Envelope.parse_of_not_document hdoc
    exact .inl ⟨_, he⟩
  · exact .inl ⟨_, Envelope.parse_of_nonObject hdoc (rootKind_eq_some.1 hkind)⟩
  · exact .inl ⟨_, parse_of_readMembers hls he⟩
  · cases hv : versionNumber version.value with
    | none =>
      obtain ⟨e, he⟩ := (Envelope.parse_of_isEnvelope henv).2 hv
      exact .inl ⟨_, he⟩
    | some v => exact .inr ⟨version, data, v, henv, hv⟩

/-- An error in the data is the one that `parse` returned for the value of `versioned_data`. -/
theorem readJsonWith_data_source (hparse : S.ParseContract) {cx : S.Context} {v : UInt32}
    {source : J.Error} (h : S.readJsonWith bytes cx = .err (.data v source)) :
    ∃ version data, IsEnvelope J.inRange bytes version data ∧
      S.parse v (memberCursor bytes data) = .err source := by
  rcases parse_cases J bytes with ⟨e, he⟩ | ⟨version, data, u, henv, hu⟩
  · rw [readJsonWith_of_parse_err cx he] at h
    cases h
  · refine ⟨version, data, henv, ?_⟩
    rw [readJsonWith_of_isEnvelope cx henv hu
      fun hmem x c' => hparse.oneValue hmem henv.valueAt_data] at h
    split_ifs at h
    · unfold readPayload at h
      cases hp : S.parse u (memberCursor bytes data) with
      | ok y =>
        -- past the data only a conversion can fail
        simp only [hp, Exec.mapErr_ok, Exec.ok_bind] at h
        cases hup : S.upgrade y.1 u cx <;> rw [hup] at h <;> cases h
      | err e => rw [hp] at h; cases h; exact hp
      | panics m => rw [hp] at h; cases h
      | hang => rw [hp] at h; cases h
    · cases h

/-- **The reader returns the first line of the table that applies**, for every document.  An
    error in the data is the one that `parse` returned. -/
theorem readJsonWith_verdict (hparse : S.ParseContract) (hstep : S.StepContract)
    (bytes : Bytes) (cx : S.Context) :
    (S.verdict bytes).Returns cx (S.readJsonWith bytes cx) ∧
    ∀ v source, S.readJsonWith bytes cx = .err (.data v source) →
      ∃ version data, IsEnvelope J.inRange bytes version data ∧
        S.parse v (memberCursor bytes data) = .err source :=
  ⟨returns_verdict hparse hstep bytes cx, fun _ _ h => readJsonWith_data_source hparse h⟩

theorem readJsonWith_verdict_counter :
    ((Versioned.counter 4).versionSet.verdict
        (ascii "\x7b\"version\":4,\"versioned_data\":7\x7d")).Returns ()
      ((Versioned.counter 4).versionSet.readJsonWith
        (ascii "\x7b\"version\":4,\"versioned_data\":7\x7d") ()) :=
  (readJsonWith_verdict (Versioned.versionSet_parseContract _) (Versioned.versionSet_stepContract _)
    _ ()).1

/-! ## The fallbacks -/

/-- The root is an object with the field `version` and the field `versioned_data`, each at least
    once. -/
def HasBothFields (inRange : Bytes → Bool) (bytes : Bytes) : Prop :=
  ∃ ls, readMembers inRange bytes = some ls ∧ VERSION_FIELD ∈ ls.map (·.1) ∧
    VERSIONED_DATA_FIELD ∈ ls.map (·.1)

theorem missingFields_eq_none {keys : List String} :
    missingFields keys = none ↔ VERSION_FIELD ∈ keys ∧ VERSIONED_DATA_FIELD ∈ keys := by
  unfold missingFields
  rw [EnvelopeFieldSet.ofBools_eq_none]
  simp only [decide_eq_false_iff_not, List.count_eq_zero, not_not]

/-- **What is not an envelope**: valid JSON that does not have both fields. -/
theorem parse_eq_notAnEnvelope_iff :
    (∃ reason, Envelope.parse J bytes = .err (.notAnEnvelope reason)) ↔
      ¬ (J.document bytes = none ∨ HasBothFields J.inRange bytes) := by
  rcases document_cases J bytes with hdoc | ⟨j, kind, hdoc, hkind⟩ | ⟨ls, e, hls, he⟩ |
    ⟨version, data, henv⟩
  · obtain ⟨e, he⟩ := Envelope.parse_of_not_document hdoc
    simp [hdoc, he]
  · have he := Envelope.parse_of_nonObject hdoc (rootKind_eq_some.1 hkind)
    refine iff_of_true ⟨_, he⟩ ?_
    rintro (hnone | ⟨ls, hls, -⟩)
    · rw [hdoc] at hnone; cases hnone
    · have hobject : J.document bytes = _ := document_object_iff.2 ⟨ls, hls, rfl⟩
      rw [hdoc] at hobject
      cases hobject
      cases hkind
  · have hdoc : J.document bytes = _ := document_object_iff.2 ⟨ls, hls, rfl⟩
    have hboth : HasBothFields J.inRange bytes ↔ missingFields (ls.map (·.1)) = none := by
      rw [missingFields_eq_none]
      constructor
      · rintro ⟨ls', hls', h⟩; rw [hls] at hls'; cases hls'; exact h
      · exact fun h => ⟨ls, hls, h⟩
    rw [parse_of_readMembers hls he, hboth, hdoc]
    rw [checkFields_ofKeys] at he
    rcases hmissing : missingFields (ls.map (·.1)) with _ | fields
    · refine iff_of_false ?_ (by simp [hmissing])
      rintro ⟨reason, hreason⟩
      cases hreason
      simp only [hmissing] at he
      split at he
      · rename_i h; cases h
      · cases he
      · split_ifs at he; cases he
    · refine iff_of_true ?_ (by simp [hmissing])
      simp only [hmissing, Except.error.injEq] at he
      exact ⟨_, congrArg _ he.symm⟩
  · have hboth : HasBothFields J.inRange bytes := by
      rcases henv with h | h
      · exact ⟨_, h, by simp, by simp⟩
      · exact ⟨_, h, by simp, by simp⟩
    refine iff_of_false ?_ (not_not.2 (.inr hboth))
    rintro ⟨reason, hreason⟩
    cases hv : versionNumber version.value with
    | none =>
      obtain ⟨e, he⟩ := (Envelope.parse_of_isEnvelope henv).2 hv
      rw [he] at hreason; cases hreason
    | some v =>
      rw [(Envelope.parse_of_isEnvelope henv).1 v hv] at hreason; cases hreason

theorem tryVersions_origin {cx : S.Context} {output : ReadOutput S.Latest} :
    ∀ {versions : List UInt32} {attempts : List (VersionAttempt J.Error)},
      S.tryVersions bytes cx versions attempts = .ok output →
        ∃ v ∈ versions, output.origin = .untagged v := by
  intro versions
  induction versions with
  | nil =>
    intro attempts h
    cases h
  | cons version versions ih =>
    intro attempts h
    unfold tryVersions at h
    split at h
    · rename_i value _
      simp only [latestVersion_eq] at h
      cases hu : S.upgrade value version cx <;> rw [hu] at h <;> cases h
      exact ⟨version, List.mem_cons_self .., rfl⟩
    · obtain ⟨v, hv, ho⟩ := ih h
      exact ⟨v, List.mem_cons_of_mem _ hv, ho⟩
    · cases h
    · cases h

theorem readUntaggedJsonWith_origin {cx : S.Context} {output : ReadOutput S.Latest}
    (h : S.readUntaggedJsonWith bytes cx = .ok output) :
    ∃ v ∈ S.VERSIONS, output.origin = .untagged v := by
  obtain ⟨u, -, h⟩ := Exec.bind_eq_ok.1 h
  obtain ⟨v, hv, ho⟩ := tryVersions_origin h
  exact ⟨v, List.mem_reverse.1 hv, ho⟩

/-- **A fallback decides nothing about an envelope, however damaged**, nor about what is not
    JSON; it decides everything about the rest. -/
theorem fallback_gating (bytes : Bytes) (cx : S.Context)
    (f g : NotAnEnvelopeReason → Exec DynError S.Latest) :
    (J.document bytes = none ∨ HasBothFields J.inRange bytes →
      S.readJsonOrElseWith bytes cx f = (S.readJsonWith bytes cx).mapErr .read ∧
      S.readJsonOrElseWith bytes cx g = (S.readJsonWith bytes cx).mapErr .read ∧
      S.readJsonOrUntaggedWith bytes cx = (S.readJsonWith bytes cx).mapErr .read) ∧
    (¬ (J.document bytes = none ∨ HasBothFields J.inRange bytes) → ∃ reason,
      S.readJsonWith bytes cx = .err (.envelope (.notAnEnvelope reason)) ∧
      S.readJsonOrElseWith bytes cx f =
        (fun latest => ⟨latest, .fallback reason, S.newest⟩) <$>
          (f reason).mapErr (.fallback reason) ∧
      S.readJsonOrUntaggedWith bytes cx =
        (S.readUntaggedJsonWith bytes cx).mapErr (.untagged reason) ∧
      ∀ output, S.readUntaggedJsonWith bytes cx = .ok output →
        ∃ v, output.origin = .untagged v) := by
  constructor
  · intro hgate
    have hreason : ∀ reason,
        S.readJsonWith bytes cx ≠ .err (.envelope (.notAnEnvelope reason)) := fun reason h =>
      parse_eq_notAnEnvelope_iff.1 ⟨reason, readJsonWith_eq_envelope_iff.1 h⟩ hgate
    rcases S.fallback_cases bytes cx with ⟨reason, hr, -, -⟩ | ⟨-, helse, huntagged⟩
    · exact absurd hr (hreason reason)
    · exact ⟨helse f, helse g, huntagged⟩
  · intro hgate
    obtain ⟨reason', hp⟩ := parse_eq_notAnEnvelope_iff.2 hgate
    rcases S.fallback_cases bytes cx with ⟨reason, hr, helse, huntagged⟩ | ⟨hnot, -, -⟩
    · refine ⟨reason, hr, helse f, huntagged, fun output houtput => ?_⟩
      obtain ⟨v, -, ho⟩ := readUntaggedJsonWith_origin houtput
      exact ⟨v, ho⟩
    · exact absurd (readJsonWith_eq_envelope_iff.2 hp) (hnot reason')

end VersionSet

end VersionedEnvelope
