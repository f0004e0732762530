import VersionedEnvelope.Verdict

/-!
# The passes over a document

A document is walked up to three times, and two passes decide whether it is valid: the one that
records the fields of an object, and `validate_json`.

* `validateJson_eq_fields` — on an object they make the same calls, and so stop at the same error.
* `Document.fromJson_err_iff` — the bytes are refused by the first pass exactly when they are
  refused by `validate_json`, with the same error.
* `passes_agree` — so no document is valid for one reader and invalid for another.
* `envelope_never_panics` — the root is never misjudged, and the pass for a field finds it.
-/

set_option autoImplicit false

namespace VersionedEnvelope

open Json

variable {J : SerdeJson} {bytes : Bytes}

/-! ## Two ways through an object -/

/-- Where an object is opened, its visitor is called, by either method. -/
theorem deserializeAny_of_lbrace {r : Bytes} (h : skipWs bytes = Byte.lbrace :: r) :
    Exec.lift (J.deserializeAny (Cursor.fromSlice bytes)) =
      .ok (.map, (Cursor.fromSlice bytes).enter r) := by
  have hreturns := Exec.returns_lift (J.deserializeAny_reads (Cursor.fromSlice bytes))
  have hdepth : ¬ (Cursor.fromSlice bytes).remainingDepth ≤ 1 := by
    rw [Cursor.fromSlice_remainingDepth]; decide
  simp only [Cursor.visit, Json.visit, Cursor.fromSlice_rest, token_openObject_iff.2 h,
    Option.bind_some, Token.visit, Option.map_some, if_neg hdepth] at hreturns
  exact hreturns.some

/-- **The two visitors of an object walk it in step.**  One knows its keys and records them, the
    other takes any string. -/
theorem visitMap_eq_fields {d : Nat} (hd : 0 < d) (map : Access)
    (hmap : map.de.remainingDepth = d) :
    Validated.visitMap J (Validated.deserialize J d) map =
      Prod.map (fun _ => ()) id <$> ObjectFields.visitMap J map := by
  refine forEach_map (d := d) J.nextKey (fun _ => ())
    (fun _ _ _ h => SerdeJson.nextKey_remainingDepth h) (fun fields key de fields' de' hde h => ?_)
    (fun fields key de hde => ?_) ObjectFields.empty map hmap
  · have hentry := ObjectFields.entry_returns J hd fields key de hde
    rw [h] at hentry
    obtain ⟨y, -, heq⟩ := Option.map_eq_some_iff.1 (Exec.returns_ok.1 hentry)
    cases heq
    exact hde
  · cases hv : J.nextValue de with
    | error e => rfl
    | ok de' =>
      have hde' : de'.remainingDepth = d := (SerdeJson.nextValue_remainingDepth hv).trans hde
      simp only [Exec.lift_ok, Exec.ok_bind, hde']
      cases Validated.deserialize J d de' <;> rfl

/-- **On an object, validation is the first pass** without its record. -/
theorem validateJson_eq_fields {r : Bytes} (h : skipWs bytes = Byte.lbrace :: r) :
    validateJson J bytes = (fun _ => ()) <$> J.fromSlice (ObjectFields.deserialize J) bytes := by
  apply SerdeJson.fromSlice_map
  have hopen := Exec.returns_lift (J.deserializeMap_reads (Cursor.fromSlice bytes))
  rw [Cursor.openMap_fromSlice h] at hopen
  have hstep : Validated.visitMap J (Validated.deserialize J (recursionLimit - 1))
      ⟨(Cursor.fromSlice bytes).enter r, true⟩ = _ :=
    visitMap_eq_fields (by decide) _ rfl
  show Validated.deserialize J ((recursionLimit - 1) + 1) (Cursor.fromSlice bytes) = _
  unfold Validated.deserialize ObjectFields.deserialize SerdeJson.deserializeMapWith
  simp only [deserializeAny_of_lbrace h, hopen.some, Exec.ok_bind, hstep]
  cases ObjectFields.visitMap J ⟨(Cursor.fromSlice bytes).enter r, true⟩ with
  | ok y =>
    simp only [Exec.map_ok, Exec.ok_bind, Prod.map, id]
    cases Exec.lift (J.endMap y.2) <;> rfl
  | err e => rfl
  | panics m => rfl
  | hang => rfl

/-- **The first pass refuses what `validate_json` refuses**, with the same error. -/
theorem Document.fromJson_err_iff {e : J.Error} :
    Document.fromJson J bytes = .err e ↔ validateJson J bytes = .err e := by
  unfold Document.fromJson
  rw [firstNonWhitespace_eq]
  by_cases hfirst : (skipWs bytes).head? = some Byte.lbrace
  · obtain ⟨r, hr⟩ := List.head?_eq_some_iff.1 hfirst
    simp only [if_pos hfirst, validateJson_eq_fields hr]
    cases J.fromSlice (ObjectFields.deserialize J) bytes <;> simp
  · simp only [if_neg hfirst]
    cases validateJson J bytes with
    | ok u =>
      -- past validation there is a value or a panic
      simp only [Exec.ok_bind]
      cases (skipWs bytes).head?.bind NonObjectKind.ofByte <;> simp [Exec.expect]
    | err e' => simp
    | panics m => simp
    | hang => simp

/-- **The two validating passes agree.**  The first pass and `validate_json` refuse the same bytes
    with the same error; so a document is not JSON for the one reader exactly when it is not for
    the other, and the untagged path is never taken for one that is not. -/
theorem passes_agree (J : SerdeJson) (bytes : Bytes) :
    (∀ e, Document.fromJson J bytes = .err e ↔ validateJson J bytes = .err e) ∧
    ∀ (S : VersionSet J) (cx : S.Context),
      (∀ e, S.readJsonWith bytes cx = .err (.envelope (.json e)) ↔
        S.readUntaggedJsonWith bytes cx = .err (.json e)) ∧
      ∀ reason e, S.readJsonOrUntaggedWith bytes cx ≠ .err (.untagged reason (.json e)) := by
  refine ⟨fun e => Document.fromJson_err_iff, fun S cx => ⟨fun e => ?_, fun reason e h => ?_⟩⟩
  · rw [VersionSet.readJsonWith_eq_envelope_iff, VersionSet.readUntaggedJsonWith_eq_json_iff,
      Envelope.parse_eq_json_iff, Document.fromJson_err_iff]
  · rcases S.fallback_cases bytes cx with ⟨reason', hread, -, huntagged⟩ | ⟨-, -, huntagged⟩
    · -- the untagged path runs on what the first pass has accepted
      have hjson : S.readUntaggedJsonWith bytes cx = .err (.json e) := by
        rw [huntagged] at h
        cases hu : S.readUntaggedJsonWith bytes cx <;> rw [hu] at h <;> cases h
        rfl
      rw [VersionSet.readUntaggedJsonWith_eq_json_iff, ← Document.fromJson_err_iff,
        ← Envelope.parse_eq_json_iff] at hjson
      have hread' : S.readJsonWith bytes cx = .err (.envelope (.json e)) :=
        VersionSet.readJsonWith_eq_envelope_iff.2 hjson
      rw [hread] at hread'
      cases hread'
    · rw [huntagged] at h
      cases hr : S.readJsonWith bytes cx <;> rw [hr] at h <;> cases h

/-! ## No panic -/

/-- Past the check of the fields, the bytes are an envelope. -/
theorem exists_isEnvelope_of_fromJson {fields : ObjectFields}
    (h : Document.fromJson J bytes = .ok (.object fields))
    (hcheck : checkFields (E := J.Error) fields = .ok ()) :
    ∃ version data, IsEnvelope J.inRange bytes version data := by
  have hfirst := Document.fromJson_returns J bytes
  rw [h] at hfirst
  obtain ⟨root, hdoc, hroot⟩ := Option.map_eq_some_iff.1 (Exec.returns_ok.1 hfirst)
  cases root with
  | object ms =>
    obtain ⟨ls, hls, rfl⟩ := document_object_iff.1 hdoc
    cases hroot
    rw [List.map_map] at hcheck
    exact VersionSet.exists_isEnvelope_of_checkFields hls hcheck
  | _ => cases hroot

theorem Document.fromJson_settles (J : SerdeJson) (bytes : Bytes) :
    (Document.fromJson J bytes).Settles := by
  have hfirst := Document.fromJson_returns J bytes
  cases hdoc : Document.fromJson J bytes with
  | ok document => trivial
  | err e => trivial
  | panics m => rw [hdoc] at hfirst; exact hfirst
  | hang => rw [hdoc] at hfirst; exact hfirst

theorem Envelope.parse_settles (J : SerdeJson) (bytes : Bytes) :
    (Envelope.parse J bytes).Settles := by
  rcases VersionSet.parse_cases J bytes with ⟨e, he⟩ | ⟨version, data, v, henv, hv⟩
  · rw [he]
    trivial
  · rw [(Envelope.parse_of_isEnvelope henv).1 v hv]
    trivial

/-- **The envelope layer never panics and never misjudges the root.**  The first byte sends a
    document down the route of its root, and what is reported is the kind of the root; bytes that
    are no document are refused; and past the check of the fields, the pass for each field runs
    its seed on the value of that field, so that only the seed itself can panic. -/
theorem envelope_never_panics (J : SerdeJson) (bytes : Bytes) :
    (∀ root, J.document bytes = some root →
      (firstNonWhitespace bytes = some Byte.lbrace ↔ ∃ ms, root = .object ms) ∧
      Document.fromJson J bytes = .ok (Document.ofJson root)) ∧
    (J.document bytes = none → ∃ e, Document.fromJson J bytes = .err e) ∧
    (Document.fromJson J bytes).Settles ∧ (Envelope.parse J bytes).Settles ∧
    ∀ fields, Document.fromJson J bytes = .ok (.object fields) →
      checkFields (E := J.Error) fields = .ok () → ∀ field : EnvelopeField, ∃ l,
        (∃ ls, readMembers J.inRange bytes = some ls ∧ (field.name, l) ∈ ls) ∧
        ∀ (α : Type) (seed : J.Seed α),
          FieldSeed.deserialize J field seed (Cursor.fromSlice bytes) = (do
            let (value, de) ← seed (memberCursor bytes l)
            let ((), de) ← FieldSeed.skipEntries J ⟨de, false⟩
            let de ← Exec.lift (J.endMap de)
            pure (value, de)) ∧
          ∀ m, deserializeField J bytes field seed = .panics m →
            seed (memberCursor bytes l) = .panics m := by
  have hfirst := Document.fromJson_returns J bytes
  refine ⟨fun root hroot => ⟨?_, ?_⟩, fun hnone => ?_, Document.fromJson_settles J bytes,
    Envelope.parse_settles J bytes, fun fields h hcheck field => ?_⟩
  · rw [firstNonWhitespace_eq]
    constructor
    · intro hbrace
      obtain ⟨r, hr⟩ := List.head?_eq_some_iff.1 hbrace
      have hobject := hroot.symm.trans (document_of_openObject (token_openObject_iff.2 hr))
      obtain ⟨⟨ms, r'⟩, -, hms⟩ := Option.bind_eq_some_iff.1 hobject.symm
      simp only [Option.ite_none_right_eq_some, Option.some.injEq] at hms
      exact ⟨ms, hms.2.symm⟩
    · rintro ⟨ms, rfl⟩
      obtain ⟨ls, hls, -⟩ := document_object_iff.1 hroot
      obtain ⟨r, -, ht, -, -⟩ := readMembers_eq_some.1 hls
      rw [token_openObject_iff.1 ht]
      rfl
  · rw [hroot] at hfirst
    exact hfirst.some
  · rw [hnone] at hfirst
    exact hfirst.none
  · obtain ⟨version, data, henv⟩ := exists_isEnvelope_of_fromJson h hcheck
    obtain ⟨pre, post, hls, hpre, hk⟩ := henv.split field
    exact ⟨field.select version data, ⟨_, hls, by simp⟩, fun α seed =>
      ⟨deserializeField_found hls hpre hk seed, fun m => henv.deserializeField_panics field⟩⟩

end VersionedEnvelope
