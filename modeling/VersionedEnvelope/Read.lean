import VersionedEnvelope.Document
import VersionedEnvelope.Upgrade

/-!
# The readers

The four readers of the crate and what they return.

* `readJsonWith` — an envelope, parsed at its version and upgraded.
* `readUntaggedJsonWith` — a payload without an envelope: the newest version that parses it.
* `readJsonOrElseWith`, `readJsonOrUntaggedWith` — a fallback for what is not an envelope.
* `readJsonWith_err_cases` — all the errors of an envelope read.
* `fallback_cases` — when the fallback is taken, and what becomes of it.
* `readJsonWith_of_isEnvelope` — on an envelope, parsing and upgrading decide the result.
-/

set_option autoImplicit false

namespace VersionedEnvelope

open Json

/-! ## What a read returns -/

/-- Where a value came from. -/
inductive Origin where
  | envelope (version : UInt32)
  | untagged (version : UInt32)
  | fallback (notAnEnvelope : NotAnEnvelopeReason)
  deriving DecidableEq

structure ReadOutput (T : Type) where
  value : T
  origin : Origin
  latest : UInt32

/-- The same output, of another value. -/
def ReadOutput.map {T U : Type} (f : T → U) (output : ReadOutput T) : ReadOutput U :=
  ⟨f output.value, output.origin, output.latest⟩

/-- Whether the document should be written again, as an envelope of the latest version. -/
def ReadOutput.needsRewrite {T : Type} (output : ReadOutput T) : Bool :=
  match output.origin with
  | .envelope version => version < output.latest
  | .untagged _ => true
  | .fallback _ => true

/-! ## The readers -/

namespace VersionSet

variable {J : SerdeJson} (S : VersionSet J)

def readJsonWith (bytes : Bytes) (cx : S.Context) :
    Exec (ReadError J.Error) (ReadOutput S.Latest) := do
  let envelope ← (Envelope.parse J bytes).mapErr .envelope
  let found := envelope.version
  if ¬ S.isMember found then .err (.unsupportedVersion ⟨found, S.VERSIONS⟩)
  else
    let value ← (envelope.data J (S.parse found)).mapErr (.data found)
    let latest ← (S.upgrade value found cx).mapErr .conversion
    let newest ← S.latestVersion
    pure ⟨latest, .envelope found, newest⟩

/-- The loop of `read_untagged_json_with` over the versions that are left to try. -/
def tryVersions (bytes : Bytes) (cx : S.Context) : List UInt32 → List (VersionAttempt J.Error) →
    Exec (UntaggedError J.Error) (ReadOutput S.Latest)
  | [], attempts => .err (.noMatchingVersion ⟨attempts⟩)
  | version :: versions, attempts =>
    match J.fromSlice (S.parse version) bytes with
    | .ok value => do
      let latest ← (S.upgrade value version cx).mapErr .conversion
      let newest ← S.latestVersion
      pure ⟨latest, .untagged version, newest⟩
    | .err source => tryVersions bytes cx versions (attempts ++ [⟨version, source⟩])
    | .panics m => .panics m
    | .hang => .hang

def readUntaggedJsonWith (bytes : Bytes) (cx : S.Context) :
    Exec (UntaggedError J.Error) (ReadOutput S.Latest) := do
  (validateJson J bytes).mapErr .json
  S.tryVersions bytes cx S.VERSIONS.reverse []

/-- `not_an_envelope`: the one error that lets a fallback run. -/
def notAnEnvelope {E : Type} : ReadError E → Except (ReadError E) NotAnEnvelopeReason
  | .envelope (.notAnEnvelope reason) => .ok reason
  | .envelope (.json source) => .error (.envelope (.json source))
  | .envelope (.duplicateFields fields) => .error (.envelope (.duplicateFields fields))
  | .envelope (.unknownFields names) => .error (.envelope (.unknownFields names))
  | .envelope (.version source) => .error (.envelope (.version source))
  | .unsupportedVersion e => .error (.unsupportedVersion e)
  | .data version source => .error (.data version source)
  | .conversion e => .error (.conversion e)

def readJsonOrElseWith (bytes : Bytes) (cx : S.Context)
    (fallback : NotAnEnvelopeReason → Exec DynError S.Latest) :
    Exec (ReadOrFallbackError J.Error) (ReadOutput S.Latest) :=
  match S.readJsonWith bytes cx with
  | .ok output => .ok output
  | .err error => do
    let reason ← (Exec.lift (notAnEnvelope error)).mapErr .read
    let latest ← (fallback reason).mapErr (.fallback reason)
    let newest ← S.latestVersion
    pure ⟨latest, .fallback reason, newest⟩
  | .panics m => .panics m
  | .hang => .hang

def readJsonOrUntaggedWith (bytes : Bytes) (cx : S.Context) :
    Exec (ReadOrUntaggedError J.Error) (ReadOutput S.Latest) :=
  match S.readJsonWith bytes cx with
  | .ok output => .ok output
  | .err error => do
    let reason ← (Exec.lift (notAnEnvelope error)).mapErr .read
    (S.readUntaggedJsonWith bytes cx).mapErr (.untagged reason)
  | .panics m => .panics m
  | .hang => .hang

section Unit

-- a version set without a context: `Context = ()`
variable [Unique S.Context]

def readJson (bytes : Bytes) : Exec (ReadError J.Error) (ReadOutput S.Latest) :=
  S.readJsonWith bytes default

def readUntaggedJson (bytes : Bytes) : Exec (UntaggedError J.Error) (ReadOutput S.Latest) :=
  S.readUntaggedJsonWith bytes default

def readJsonOrElse (bytes : Bytes) (fallback : NotAnEnvelopeReason → Exec DynError S.Latest) :
    Exec (ReadOrFallbackError J.Error) (ReadOutput S.Latest) :=
  S.readJsonOrElseWith bytes default fallback

def readJsonOrUntagged (bytes : Bytes) :
    Exec (ReadOrUntaggedError J.Error) (ReadOutput S.Latest) :=
  S.readJsonOrUntaggedWith bytes default

end Unit

/-! ## Reading an envelope -/

variable {S} {bytes : Bytes} {cx : S.Context}

/-- An envelope of a version that is not listed is not supported, whatever its data is. -/
theorem readJsonWith_of_not_mem (cx : S.Context) {envelope : Envelope}
    (h : Envelope.parse J bytes = .ok envelope) (hv : envelope.version ∉ S.VERSIONS) :
    S.readJsonWith bytes cx = .err (.unsupportedVersion ⟨envelope.version, S.VERSIONS⟩) := by
  have hnot : ¬ S.isMember envelope.version = true := fun h => hv (S.isMember_iff.1 h)
  unfold readJsonWith
  simp only [h, Exec.mapErr_ok, Exec.ok_bind, if_pos hnot]

/-- The data of a listed version are parsed and upgraded. -/
theorem readJsonWith_of_mem (cx : S.Context) {envelope : Envelope}
    (h : Envelope.parse J bytes = .ok envelope) (hv : envelope.version ∈ S.VERSIONS) :
    S.readJsonWith bytes cx = (do
      let value ← (envelope.data J (S.parse envelope.version)).mapErr (.data envelope.version)
      let latest ← (S.upgrade value envelope.version cx).mapErr .conversion
      pure ⟨latest, .envelope envelope.version, S.newest⟩) := by
  unfold readJsonWith
  simp only [h, Exec.mapErr_ok, Exec.ok_bind, S.isMember_iff.2 hv, not_true_eq_false, if_false,
    latestVersion_eq]

theorem readJsonWith_of_parse_err (cx : S.Context) {e : EnvelopeError J.Error}
    (h : Envelope.parse J bytes = .err e) : S.readJsonWith bytes cx = .err (.envelope e) := by
  simp [readJsonWith, h]

/-- **All the errors of a read**, each with its constructor. -/
theorem readJsonWith_err_cases {e : ReadError J.Error} (h : S.readJsonWith bytes cx = .err e) :
    (∃ e', Envelope.parse J bytes = .err e' ∧ e = .envelope e') ∨
    ∃ envelope, Envelope.parse J bytes = .ok envelope ∧
      (envelope.version ∉ S.VERSIONS ∧
        e = .unsupportedVersion ⟨envelope.version, S.VERSIONS⟩ ∨
      envelope.version ∈ S.VERSIONS ∧
        ((∃ source, e = .data envelope.version source) ∨ ∃ c, e = .conversion c)) := by
  cases hp : Envelope.parse J bytes with
  | err e' =>
    rw [readJsonWith_of_parse_err cx hp] at h
    cases h
    exact .inl ⟨e', rfl, rfl⟩
  | panics m =>
    rw [readJsonWith, hp] at h
    cases h
  | hang =>
    rw [readJsonWith, hp] at h
    cases h
  | ok envelope =>
    refine .inr ⟨envelope, rfl, ?_⟩
    by_cases hv : envelope.version ∈ S.VERSIONS
    · rw [readJsonWith_of_mem cx hp hv] at h
      refine .inr ⟨hv, ?_⟩
      cases hd : envelope.data J (S.parse envelope.version) with
      | ok x =>
        rw [hd] at h
        cases hu : S.upgrade x envelope.version cx with
        | err c =>
          simp only [hu, Exec.mapErr_ok, Exec.ok_bind, Exec.mapErr_err, Exec.err_bind] at h
          cases h
          exact .inr ⟨c, rfl⟩
        | _ => simp [hu] at h
      | err source =>
        rw [hd] at h
        cases h
        exact .inl ⟨source, rfl⟩
      | _ => simp [hd] at h
    · rw [readJsonWith_of_not_mem cx hp hv] at h
      cases h
      exact .inl ⟨hv, rfl⟩

/-- **What is wrong with the envelope is what the reader says**: past it, every error has a
    constructor of its own. -/
theorem readJsonWith_eq_envelope_iff {e : EnvelopeError J.Error} :
    S.readJsonWith bytes cx = .err (.envelope e) ↔ Envelope.parse J bytes = .err e := by
  refine ⟨fun h => ?_, readJsonWith_of_parse_err cx⟩
  rcases readJsonWith_err_cases h with ⟨e', hp, he⟩ | ⟨_, _, ⟨_, he⟩ | ⟨_, ⟨_, he⟩ | ⟨_, he⟩⟩⟩
  · cases he
    exact hp
  all_goals cases he

theorem notAnEnvelope_cases {E : Type} (e : ReadError E) :
    notAnEnvelope e = .error e ∨ ∃ reason, e = .envelope (.notAnEnvelope reason) := by
  cases e with
  | envelope e => cases e <;> simp [notAnEnvelope]
  | _ => exact .inl rfl

/-- **The readers with a fallback** take it where the envelope reader says that the input is not an
    envelope, and report what that reader says otherwise. -/
theorem fallback_cases (S : VersionSet J) (bytes : Bytes) (cx : S.Context) :
    (∃ reason, S.readJsonWith bytes cx = .err (.envelope (.notAnEnvelope reason)) ∧
      (∀ fallback, S.readJsonOrElseWith bytes cx fallback =
        (fun latest => ⟨latest, .fallback reason, S.newest⟩) <$>
          (fallback reason).mapErr (.fallback reason)) ∧
      S.readJsonOrUntaggedWith bytes cx =
        (S.readUntaggedJsonWith bytes cx).mapErr (.untagged reason)) ∨
    ((∀ reason, S.readJsonWith bytes cx ≠ .err (.envelope (.notAnEnvelope reason))) ∧
      (∀ fallback, S.readJsonOrElseWith bytes cx fallback =
        (S.readJsonWith bytes cx).mapErr .read) ∧
      S.readJsonOrUntaggedWith bytes cx = (S.readJsonWith bytes cx).mapErr .read) := by
  unfold readJsonOrElseWith readJsonOrUntaggedWith
  cases hr : S.readJsonWith bytes cx with
  | ok output => exact .inr ⟨by simp, fun _ => rfl, rfl⟩
  | panics m => exact .inr ⟨by simp, fun _ => rfl, rfl⟩
  | hang => exact .inr ⟨by simp, fun _ => rfl, rfl⟩
  | err e =>
    rcases notAnEnvelope_cases e with he | ⟨reason, rfl⟩
    · refine .inr ⟨fun reason h => ?_, fun _ => ?_, ?_⟩
      · cases h
        cases he
      · simp [he]
      · simp [he]
    · refine .inl ⟨reason, rfl, fun fallback => ?_, ?_⟩
      · simp only [notAnEnvelope, Exec.lift_ok, Exec.mapErr_ok, Exec.ok_bind, latestVersion_eq]
        cases fallback reason <;> rfl
      · simp only [notAnEnvelope, Exec.lift_ok, Exec.mapErr_ok, Exec.ok_bind]

/-- Past validation, no version's error is about the JSON of the document. -/
theorem tryVersions_ne_json (bytes : Bytes) (cx : S.Context) (e : J.Error) :
    ∀ (versions : List UInt32) (attempts : List (VersionAttempt J.Error)),
      S.tryVersions bytes cx versions attempts ≠ .err (.json e) := by
  intro versions
  induction versions with
  | nil =>
    intro attempts h
    cases h
  | cons version versions ih =>
    intro attempts h
    unfold tryVersions at h
    split at h
    · rename_i value _
      simp only [latestVersion_eq] at h
      cases hu : S.upgrade value version cx <;> rw [hu] at h <;> cases h
    · exact ih _ h
    · cases h
    · cases h

/-- **The untagged reader says that the input is not JSON** exactly when validation does. -/
theorem readUntaggedJsonWith_eq_json_iff {e : J.Error} :
    S.readUntaggedJsonWith bytes cx = .err (.json e) ↔ validateJson J bytes = .err e := by
  unfold readUntaggedJsonWith
  cases validateJson J bytes with
  | ok u =>
    simp only [Exec.mapErr_ok, Exec.ok_bind, reduceCtorEq, iff_false]
    exact tryVersions_ne_json bytes cx e _ _
  | err e' => simp
  | panics m => simp
  | hang => simp

theorem readUntaggedJsonWith_of_valid (cx : S.Context) (h : validateJson J bytes = .ok ()) :
    S.readUntaggedJsonWith bytes cx = S.tryVersions bytes cx S.VERSIONS.reverse [] := by
  rw [readUntaggedJsonWith, h, Exec.mapErr_ok, Exec.ok_bind]

/-- Reading the payload of an envelope of version `v` that starts at the cursor `c`. -/
def readPayload (S : VersionSet J) (v : UInt32) (c : Cursor) (cx : S.Context) :
    Exec (ReadError J.Error) (ReadOutput S.Latest) := do
  let (value, _) ← (S.parse v c).mapErr (.data v)
  let latest ← (S.upgrade value v cx).mapErr .conversion
  pure ⟨latest, .envelope v, S.newest⟩

theorem readPayload_of_err (cx : S.Context) {v : UInt32} {c : Cursor} {e : J.Error}
    (h : S.parse v c = .err e) : S.readPayload v c cx = .err (.data v e) := by
  rw [readPayload, h, Exec.mapErr_err, Exec.err_bind]

theorem readPayload_of_upgrade {v : UInt32} {c c' : Cursor} {x : S.Value} {l : S.Latest}
    (hp : S.parse v c = .ok (x, c')) (hup : S.upgrade x v cx = .ok l) :
    S.readPayload v c cx = .ok ⟨l, .envelope v, S.newest⟩ := by
  simp [readPayload, hp, hup]

theorem readPayload_ok {v : UInt32} {c : Cursor} {output : ReadOutput S.Latest}
    (h : S.readPayload v c cx = .ok output) : output.origin = .envelope v := by
  obtain ⟨y, -, h⟩ := Exec.bind_eq_ok.1 h
  obtain ⟨l, -, h⟩ := Exec.bind_eq_ok.1 h
  cases h
  rfl

/-- Past the check of the version, only the data and the conversions can fail. -/
theorem readPayload_ne_unsupported {v : UInt32} {c : Cursor} (u : UnsupportedVersion) :
    S.readPayload v c cx ≠ .err (.unsupportedVersion u) := by
  unfold readPayload
  cases S.parse v c with
  | ok y =>
    simp only [Exec.mapErr_ok, Exec.ok_bind]
    cases S.upgrade y.1 v cx <;> simp
  | _ => simp

/-- **On an envelope, its version and what is made of its data decide the result.** -/
theorem readJsonWith_of_isEnvelope (cx : S.Context) {version data : Located Json} {v : UInt32}
    (h : IsEnvelope J.inRange bytes version data) (hv : versionNumber version.value = some v)
    (hone : v ∈ S.VERSIONS → ∀ x c', S.parse v (memberCursor bytes data) = .ok (x, c') →
      c' = (memberCursor bytes data).moveTo data.after) :
    S.readJsonWith bytes cx =
      if v ∈ S.VERSIONS then S.readPayload v (memberCursor bytes data) cx
      else .err (.unsupportedVersion ⟨v, S.VERSIONS⟩) := by
  have hparse := (Envelope.parse_of_isEnvelope h).1 v hv
  by_cases hmem : v ∈ S.VERSIONS
  · rw [readJsonWith_of_mem cx hparse hmem, if_pos hmem, readPayload]
    simp only [Envelope.data, deserializeField_data h (hone hmem)]
    cases S.parse v (memberCursor bytes data) <;> rfl
  · rw [if_neg hmem]
    exact readJsonWith_of_not_mem cx hparse hmem

end VersionSet

end VersionedEnvelope
