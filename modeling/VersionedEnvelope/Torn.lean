import VersionedEnvelope.Json.Prefix
import VersionedEnvelope.RoundTrip

/-!
# Torn and overlong documents

A file that was not written to its end, or has something after it.  What is left of an envelope is
never taken for an older document without one: it is not JSON, and no fallback is asked.

* `NotJson` — all four readers say that the input is not JSON.
* `notJson_of_prefix`, `notJson_of_append` — a part of an object document that lacks more than
  whitespace, and an object document with more than whitespace after it.
* `torn_write` — so it is for what the writer writes, cut off anywhere.
-/

set_option autoImplicit false

namespace VersionedEnvelope

open Json

namespace VersionSet

variable {J : SerdeJson} {S : VersionSet J} {bytes p s : Bytes} {cx : S.Context}

/-- **All four readers refuse the input as JSON**: no version is asked and no fallback runs. -/
structure NotJson (S : VersionSet J) (bytes : Bytes) (cx : S.Context) : Prop where
  readJsonWith : ∃ e, S.readJsonWith bytes cx = .err (.envelope (.json e))
  readUntaggedJsonWith : ∃ e, S.readUntaggedJsonWith bytes cx = .err (.json e)
  readJsonOrElseWith : ∃ e, ∀ fallback,
    S.readJsonOrElseWith bytes cx fallback = .err (.read (.envelope (.json e)))
  readJsonOrUntaggedWith : ∃ e,
    S.readJsonOrUntaggedWith bytes cx = .err (.read (.envelope (.json e)))

theorem notJson_of_not_document (cx : S.Context) (h : J.document bytes = none) :
    S.NotJson bytes cx := by
  obtain ⟨e, he⟩ := Envelope.parse_of_not_document h
  have hread := readJsonWith_of_parse_err cx he
  have hvalid := validateJson_returns J bytes
  rw [h] at hvalid
  obtain ⟨e', he'⟩ := hvalid.none
  rcases S.fallback_cases bytes cx with ⟨reason, hreason, -⟩ | ⟨-, helse, huntagged⟩
  · cases hread.symm.trans hreason
  · refine ⟨⟨e, hread⟩, ⟨e', readUntaggedJsonWith_eq_json_iff.2 he'⟩, ⟨e, fun fallback => ?_⟩,
      ⟨e, ?_⟩⟩
    · rw [helse, hread, Exec.mapErr_err]
    · rw [huntagged, hread, Exec.mapErr_err]

/-- **A torn object document** is refused as JSON. -/
theorem notJson_of_prefix (cx : S.Context) {ms : List (String × Json)}
    (h : J.document (p ++ s) = some (.object ms)) (hs : skipWs s ≠ []) : S.NotJson p cx :=
  notJson_of_not_document cx (document_torn h hs)

/-- **An object document with something after it** is refused as JSON. -/
theorem notJson_of_append (cx : S.Context) {ms : List (String × Json)}
    (h : J.document p = some (.object ms)) (hs : skipWs s ≠ []) : S.NotJson (p ++ s) cx :=
  notJson_of_not_document cx ((document_append h s).trans (if_neg hs))

end VersionSet

/-! ## What the writer writes -/

/-- The last byte of an envelope is its closing brace, which no part of it has but all of it. -/
theorem skipWs_of_envelopeText {v : UInt32} {d p s : Bytes} (h : envelopeText v d = p ++ s)
    (hs : s ≠ []) : skipWs s ≠ [] := by
  have htext : envelopeText v d = (Byte.lbrace :: (fieldText VERSION_FIELD ++
      (decimal v.toNat ++ (Byte.comma :: (fieldText VERSIONED_DATA_FIELD ++ d))))) ++
        [Byte.rbrace] := by
    rw [envelopeText_eq]
    simp [afterBrace, afterVersion]
  have hlast : Byte.rbrace ∈ s := by
    have hgetLast : s.getLast? = some Byte.rbrace := by
      have := congrArg List.getLast? (h.symm.trans htext)
      rwa [List.getLast?_append_of_ne_nil _ hs, List.getLast?_concat] at this
    exact List.mem_of_getLast? hgetLast
  intro hskip
  have hspace := List.dropWhile_eq_nil_iff.1 hskip _ hlast
  cases hspace

/-- **A torn write is never taken for anything else.**  What the writer writes is an object, and
    every part of it from its start that is not all of it is refused as JSON by every reader of
    every version set; and so is all of it with anything but whitespace after it. -/
theorem torn_write {J : SerdeJson} {T : Versioned J} {x : T.Carrier} {d text : Bytes}
    (hx : T.serialize x = .ok d) (hfits : J.FitsEnvelope d)
    (hwrite : (WriteEnvelope.new x).toVec = .ok text) (S : VersionSet J) (cx : S.Context) :
    (∀ p s, text = p ++ s → s ≠ [] → S.NotJson p cx) ∧
    (∀ s, skipWs s ≠ [] → S.NotJson (text ++ s) cx) := by
  obtain rfl : envelopeText T.VERSION d = text :=
    Except.ok.inj ((WriteEnvelope.toVec_new hx).symm.trans hwrite)
  obtain ⟨j, hd, hnesting⟩ := hfits
  obtain ⟨version, data, henv, -⟩ := envelopeText_isEnvelope T.VERSION hd hnesting
  obtain ⟨ms, hdoc⟩ : ∃ ms, J.document (envelopeText T.VERSION d) = some (.object ms) := by
    rcases henv with hls | hls
    · exact ⟨_, document_object_iff.2 ⟨_, hls, rfl⟩⟩
    · exact ⟨_, document_object_iff.2 ⟨_, hls, rfl⟩⟩
  refine ⟨fun p s htext hs => ?_, fun s hs => VersionSet.notJson_of_append cx hdoc hs⟩
  exact VersionSet.notJson_of_prefix cx (htext ▸ hdoc) (skipWs_of_envelopeText htext hs)

theorem torn_write_counter : ∃ text,
    (WriteEnvelope.new (T := .counter 4) (7 : UInt32)).toVec = .ok text ∧
    text = ascii "\x7b\"version\":4,\"versioned_data\":7\x7d" ∧
    (Versioned.counter 4).versionSet.NotJson (ascii "\x7b\"version\":4,\"versioned_data\":7") () ∧
    (Versioned.counter 4).versionSet.NotJson (text ++ ascii "\x7d") () := by
  obtain ⟨hx, hfits⟩ := Versioned.counter_survives 4 7
  have hwrite := WriteEnvelope.toVec_new hx.1
  have htext : envelopeText (Versioned.counter 4).VERSION (decimal (7 : UInt32).toNat) =
      ascii "\x7b\"version\":4,\"versioned_data\":7\x7d" := rfl
  have htorn := torn_write hx.1 hfits hwrite (Versioned.counter 4).versionSet ()
  refine ⟨_, hwrite, htext, htorn.1 _ [Byte.rbrace] (htext.trans rfl) (List.cons_ne_nil _ _),
    htorn.2 _ ?_⟩
  rw [show ascii "\x7d" = [Byte.rbrace] from rfl, skipWs_cons (by decide)]
  exact List.cons_ne_nil _ _

end VersionedEnvelope
