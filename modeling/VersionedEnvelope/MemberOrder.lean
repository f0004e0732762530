import VersionedEnvelope.Verdict

/-!
# The order of the members

The reader walks the members of the root in order, three times over.  What it returns does not
depend on that order, nor on the whitespace around the members or on how their keys are escaped.

* `memberTexts` — the members of the root as decoded keys and source texts.
* `ofKeys_perm` — the record of the fields does not depend on the order of the keys.
* `IsEnvelope.memberTexts_perm` — the members of an envelope are its two fields.
* `readPayload_sameText` — a payload is read by its text, wherever it stands.
* `readJsonWith_perm` — documents with the same members in any order are read alike.
-/

set_option autoImplicit false

namespace VersionedEnvelope

open Json

/-- The members of the object at the root of a document: the decoded key and the source text of
    the value. -/
def SerdeJson.memberTexts (J : SerdeJson) (bytes : Bytes) : Option (List (String × Bytes)) :=
  (readMembers J.inRange bytes).map fun ls => ls.map fun (k, l) => (k, l.text)

section Members

variable {J : SerdeJson} {bytes bytes' : Bytes} {ms ms' : List (String × Bytes)}

/-- The documents with members are the objects. -/
theorem exists_memberTexts_iff :
    (∃ ms, J.memberTexts bytes = some ms) ↔ ∃ ms, J.document bytes = some (.object ms) := by
  constructor
  · rintro ⟨ms, h⟩
    obtain ⟨ls, hls, -⟩ := Option.map_eq_some_iff.1 h
    exact ⟨_, document_object_iff.2 ⟨ls, hls, rfl⟩⟩
  · rintro ⟨ms, h⟩
    obtain ⟨ls, hls, -⟩ := document_object_iff.1 h
    exact ⟨_, Option.map_eq_some_iff.2 ⟨ls, hls, rfl⟩⟩

theorem keys_of_memberTexts {ls : List (String × Located Json)}
    (hls : readMembers J.inRange bytes = some ls) (h : J.memberTexts bytes = some ms) :
    ms.map (·.1) = ls.map (·.1) := by
  rw [SerdeJson.memberTexts, hls] at h
  cases h
  rw [List.map_map]
  rfl

/-- **The record of the fields does not depend on the order of the keys.** -/
theorem ObjectFields.ofKeys_perm {keys keys' : List String} (h : keys.Perm keys') :
    ofKeys keys = ofKeys keys' := by
  have hother : otherKeys keys = otherKeys keys' := by
    ext k
    rw [mem_otherKeys, mem_otherKeys, h.mem_iff]
  rw [ofKeys_eq, ofKeys_eq, h.count_eq, h.count_eq, hother]

/-- **The members of an envelope are its two fields**, in one order or the other. -/
theorem IsEnvelope.memberTexts_perm {version data : Located Json}
    (henv : IsEnvelope J.inRange bytes version data) (h : J.memberTexts bytes = some ms) :
    ms.Perm [(VERSION_FIELD, version.text), (VERSIONED_DATA_FIELD, data.text)] := by
  unfold SerdeJson.memberTexts at h
  rcases henv with henv | henv
  · rw [henv] at h
    cases h
    exact .refl _
  · rw [henv] at h
    cases h
    exact .swap _ _ _

/-- The source text of a field stands where the field is. -/
theorem IsEnvelope.skipWs_before {version data : Located Json}
    (henv : IsEnvelope J.inRange bytes version data) (field : EnvelopeField) :
    skipWs (memberCursor bytes (field.select version data)).rest =
      (field.select version data).text ++ (field.select version data).after := by
  obtain ⟨pre, post, hls, -, -⟩ := henv.split field
  obtain ⟨t, -, ht, -⟩ := readValue_reads _ _ _ _
    (readMembers_value hls (m := (field.name, field.select version data)) (by simp))
  rw [Located.text_eq ht]
  exact ht

/-- Two envelopes with the same members have the same version and the same data, as text. -/
theorem IsEnvelope.text_eq {version data version' data' : Located Json}
    (henv : IsEnvelope J.inRange bytes version data)
    (henv' : IsEnvelope J.inRange bytes' version' data') (h : J.memberTexts bytes = some ms)
    (h' : J.memberTexts bytes' = some ms') (hperm : ms.Perm ms') :
    version.text = version'.text ∧ data.text = data'.text := by
  have hne : VERSION_FIELD ≠ VERSIONED_DATA_FIELD := by decide
  have hpair := ((henv.memberTexts_perm h).symm.trans hperm).trans (henv'.memberTexts_perm h')
  have hversion : (VERSION_FIELD, version.text) ∈
      [(VERSION_FIELD, version'.text), (VERSIONED_DATA_FIELD, data'.text)] :=
    hpair.subset (List.mem_cons_self ..)
  have hdata : (VERSIONED_DATA_FIELD, data.text) ∈
      [(VERSION_FIELD, version'.text), (VERSIONED_DATA_FIELD, data'.text)] :=
    hpair.subset (List.mem_cons_of_mem _ (List.mem_cons_self ..))
  constructor
  · simpa [hne] using hversion
  · simpa [hne.symm] using hdata

end Members

namespace VersionSet

variable {J : SerdeJson} {S : VersionSet J} {cx : S.Context} {v : UInt32} {c c' : Cursor}
  {t : Bytes}

/-- **A payload is read by its text**, wherever it stands. -/
theorem readPayload_sameText (hparse : S.ParseContract) (hsame : S.SameText) (hv : v ∈ S.VERSIONS)
    (hc : TextAt J.inRange c t) (hc' : TextAt J.inRange c' t) (cx : S.Context) :
    (S.readPayload v c cx).mapErr (ReadError.map fun _ => ()) =
      (S.readPayload v c' cx).mapErr (ReadError.map fun _ => ()) := by
  have ⟨j, r, hj, _⟩ := hc
  have ⟨j', r', hj', _⟩ := hc'
  unfold readPayload
  rcases (hparse.settles hv hj).cases with ⟨⟨x, d⟩, hx⟩ | ⟨e, he⟩
  · obtain ⟨d', hx'⟩ := hsame hv hc hc' hx
    rw [hx, hx']
    rfl
  · rcases (hparse.settles hv hj').cases with ⟨⟨x, d'⟩, hx'⟩ | ⟨e', he'⟩
    · -- what one text makes is made of the other, so both are refused or neither is
      obtain ⟨d, hx⟩ := hsame hv hc' hc hx'
      rw [hx] at he
      cases he
    · rw [he, he']
      rfl

/-- **The order of the members does not matter.**  Documents whose roots have the same members,
    repeated ones included, in any order are read alike: the same value, origin and latest version,
    or the same error up to what `serde_json` says. -/
theorem readJsonWith_perm (hparse : S.ParseContract) (hsame : S.SameText) {bytes bytes' : Bytes}
    {ms ms' : List (String × Bytes)} (hms : J.memberTexts bytes = some ms)
    (hms' : J.memberTexts bytes' = some ms') (hperm : ms.Perm ms') (cx : S.Context) :
    (S.readJsonWith bytes cx).mapErr (ReadError.map fun _ => ()) =
      (S.readJsonWith bytes' cx).mapErr (ReadError.map fun _ => ()) := by
  obtain ⟨ls, hls, -⟩ := Option.map_eq_some_iff.1 hms
  obtain ⟨ls', hls', -⟩ := Option.map_eq_some_iff.1 hms'
  have hkeys : (ls.map (·.1)).Perm (ls'.map (·.1)) := by
    rw [← keys_of_memberTexts hls hms, ← keys_of_memberTexts hls' hms']
    exact hperm.map _
  have hfields := ObjectFields.ofKeys_perm hkeys
  cases hcheck : checkFields (E := J.Error) (ObjectFields.ofKeys (ls.map (·.1))) with
  | error e =>
    have hcheck' := hfields ▸ hcheck
    rw [readJsonWith_of_parse_err cx (parse_of_readMembers hls hcheck),
      readJsonWith_of_parse_err cx (parse_of_readMembers hls' hcheck')]
  | ok u =>
    obtain ⟨version, data, henv⟩ := exists_isEnvelope_of_checkFields hls hcheck
    obtain ⟨version', data', henv'⟩ := exists_isEnvelope_of_checkFields hls' (hfields ▸ hcheck)
    obtain ⟨hversion, hdata⟩ := henv.text_eq henv' hms hms' hperm
    have htext := fun field => henv.skipWs_before field
    have htext' := fun field => henv'.skipWs_before field
    have hvalue : version.value = version'.value :=
      TextAt.unique henv.valueAt_version (htext .version) henv'.valueAt_version
        (hversion ▸ htext' .version)
    cases hv : versionNumber version.value with
    | none =>
      obtain ⟨e, he⟩ := (Envelope.parse_of_isEnvelope henv).2 hv
      obtain ⟨e', he'⟩ := (Envelope.parse_of_isEnvelope henv').2 (hvalue ▸ hv)
      rw [readJsonWith_of_parse_err cx he, readJsonWith_of_parse_err cx he']
      rfl
    | some v =>
      rw [readJsonWith_of_isEnvelope cx henv hv
          fun hmem x c' => hparse.oneValue hmem henv.valueAt_data,
        readJsonWith_of_isEnvelope cx henv' (hvalue ▸ hv)
          fun hmem x c' => hparse.oneValue hmem henv'.valueAt_data]
      by_cases hmem : v ∈ S.VERSIONS
      · rw [if_pos hmem, if_pos hmem]
        exact readPayload_sameText hparse hsame hmem ⟨_, _, henv.valueAt_data, htext .data⟩
          ⟨_, _, henv'.valueAt_data, hdata ▸ htext' .data⟩ cx
      · rw [if_neg hmem, if_neg hmem]

/-- The members swapped, with whitespace and an escape in a key. -/
theorem readJsonWith_perm_counter :
    (Versioned.counter 4).versionSet.readJsonWith
        (ascii "\x7b\"version\":4,\"versioned_data\":7\x7d") () =
      .ok ⟨(7 : UInt32), .envelope 4, 4⟩ ∧
    ((Versioned.counter 4).versionSet.readJsonWith
        (ascii " \x7b \"versioned_data\": 7, \"\\u0076ersion\": 4\x7d ") ()).mapErr
        (ReadError.map fun _ => ()) =
      .ok ⟨(7 : UInt32), .envelope 4, 4⟩ := by
  have hread : (Versioned.counter 4).versionSet.readJsonWith
      (ascii "\x7b\"version\":4,\"versioned_data\":7\x7d") () =
        .ok ⟨(7 : UInt32), .envelope 4, 4⟩ := rfl
  have hms : (SerdeJson.reference fun _ => true).memberTexts
      (ascii "\x7b\"version\":4,\"versioned_data\":7\x7d") =
        some [("version", ascii "4"), ("versioned_data", ascii "7")] := rfl
  have hms' : (SerdeJson.reference fun _ => true).memberTexts
      (ascii " \x7b \"versioned_data\": 7, \"\\u0076ersion\": 4\x7d ") =
        some [("versioned_data", ascii "7"), ("version", ascii "4")] := rfl
  have hperm := readJsonWith_perm (Versioned.versionSet_parseContract (.counter 4))
    (Versioned.versionSet_sameText _ (Deserialize.reference_sameText versionNumber)) hms hms'
    (.swap _ _ _) ()
  rw [hread] at hperm
  exact ⟨hread, hperm.symm⟩

end VersionSet

end VersionedEnvelope
