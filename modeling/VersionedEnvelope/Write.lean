import VersionedEnvelope.Json.Decimal
import VersionedEnvelope.Read

/-!
# The writer

`WriteEnvelope`, and what the readers find in what it writes.

* `toVec_new` — an envelope is written as `{"version":v,"versioned_data":d}`.
* `envelopeText_isEnvelope` — that text is an envelope of version `v` with the text of `d` as its
  data, for every document `d` that leaves room for one more level of nesting.
* `readJsonWith_envelopeText` — reading it is reading its data.
-/

set_option autoImplicit false

namespace VersionedEnvelope

open Json

/-- `WriteEnvelope<T>`. -/
structure WriteEnvelope {J : SerdeJson} (T : Versioned J) where
  version : UInt32
  data : T.Carrier

namespace WriteEnvelope

variable {J : SerdeJson} {T : Versioned J}

def new (data : T.Carrier) : WriteEnvelope T := ⟨T.VERSION, data⟩

/-- `serde_json::to_vec` on an envelope. -/
def toVec (envelope : WriteEnvelope T) : Except J.Error Bytes := do
  let data ← T.serialize envelope.data
  pure (J.serializeStruct "WriteEnvelope"
    [(VERSION_FIELD, J.serializeU32 envelope.version), (VERSIONED_DATA_FIELD, data)])

end WriteEnvelope

/-- The document `{"version":v,"versioned_data":d}`. -/
def envelopeText (v : UInt32) (d : Bytes) : Bytes :=
  structText [(VERSION_FIELD, decimal v.toNat), (VERSIONED_DATA_FIELD, d)]

/-- **An envelope is written as its version and its data.** -/
theorem WriteEnvelope.toVec_new {J : SerdeJson} {T : Versioned J} {x : T.Carrier} {text : Bytes}
    (h : T.serialize x = .ok text) :
    (WriteEnvelope.new x).toVec = .ok (envelopeText T.VERSION text) := by
  have hplain : ∀ f ∈ [(VERSION_FIELD, J.serializeU32 T.VERSION), (VERSIONED_DATA_FIELD, text)],
      PlainKey f.1 := by
    simp only [List.forall_mem_cons, List.not_mem_nil, false_implies, implies_true, and_true]
    decide
  simp only [toVec, new, h]
  change Except.ok _ = _
  rw [J.serializeStruct_text _ _ hplain, J.serializeU32_text]
  rfl

/-! ## Reading what is written -/

/-- The key `k` is read back as itself. -/
theorem nextKey_fieldText {k : String} (hk : parseStr (ascii k ++ [Byte.quote]) = some (k, []))
    (w : Bytes) : nextKey true (fieldText k ++ w) = some (some k, Byte.colon :: w) ∧
      nextKey false (Byte.comma :: (fieldText k ++ w)) = some (some k, Byte.colon :: w) := by
  obtain ⟨t, ht, -, hext⟩ := parseStr_reads hk
  rw [List.append_nil] at ht
  have hkey := hext (Byte.colon :: w)
  rw [← ht, List.append_assoc] at hkey
  have htext : fieldText k ++ w = Byte.quote :: (ascii k ++ ([Byte.quote] ++ Byte.colon :: w)) := by
    simp [fieldText]
  have hskip : ∀ r, skipWs (Byte.quote :: r) = Byte.quote :: r := skipWs_cons (by decide)
  have hopen : openKey (Byte.quote :: (ascii k ++ ([Byte.quote] ++ Byte.colon :: w))) =
      some (k, Byte.colon :: w) := by
    rw [openKey, if_pos rfl, hkey]
  have hskip' : ∀ r, skipWs (Byte.comma :: r) = Byte.comma :: r := skipWs_cons (by decide)
  have hne : Byte.quote ≠ Byte.rbrace := by decide
  have hne' : Byte.comma ≠ Byte.rbrace := by decide
  rw [htext]
  constructor
  · rw [nextKey, nextItem, hskip]
    simp only [if_neg hne, if_true, hopen, Option.map_some]
  · rw [nextKey, nextItem, hskip']
    simp only [if_neg hne', Bool.false_eq_true, if_false, if_true, hskip, if_neg hne, hopen,
      Option.map_some]

/-- What is left of a document after its value is followed by the closing brace. -/
theorem skipWs_append_rbrace {r : Bytes} (hr : skipWs r = []) :
    skipWs (r ++ [Byte.rbrace]) = [Byte.rbrace] := by
  obtain ⟨s, hs, hsw⟩ := exists_skipWs r
  rw [hr, List.append_nil] at hs
  rw [hs, skipWs_append hsw, skipWs_cons (by decide)]

/-- A document followed by a closing brace is read like the document: the same text. -/
theorem readValue_append_rbrace {inRange : Bytes → Bool} {d : Bytes} {j : Json} {k : Nat}
    (h : document inRange d = some j) (hk : k ≤ recursionLimit) (hnesting : j.nesting < k) :
    ∃ t r, skipWs r = [] ∧ readValue inRange recursionLimit d = some (j, r) ∧
      skipWs d = t ++ r ∧
      readValue inRange k (d ++ [Byte.rbrace]) = some (j, r ++ [Byte.rbrace]) ∧
      skipWs (d ++ [Byte.rbrace]) = t ++ (r ++ [Byte.rbrace]) := by
  obtain ⟨⟨j', r⟩, hread, hend⟩ := Option.bind_eq_some_iff.1 h
  simp only [Option.ite_none_right_eq_some, Option.some.injEq] at hend
  obtain ⟨hr, rfl⟩ := hend
  have hlow : readValue inRange k d = some (j', r) := (readValue_iff_nesting hk).2 ⟨hread, hnesting⟩
  obtain ⟨t, hne, ht, hext⟩ := readValue_reads _ _ _ _ hlow
  have hskip : skipWs d ≠ [] := by rw [ht]; simp [hne]
  have ht' : skipWs (d ++ [Byte.rbrace]) = t ++ (r ++ [Byte.rbrace]) := by
    rw [skipWs_append_right hskip, ht, List.append_assoc]
  have hfollow : Follow (r ++ [Byte.rbrace]) :=
    follow_of_head (b := Byte.rbrace) (by rw [skipWs_append_rbrace hr]; rfl) (by decide)
  exact ⟨t, r, hr, hread, ht, hext _ _ ht' hfollow, ht'⟩

/-- The value of a member follows its colon. -/
theorem memberValue_colon {α : Type} (value : Bytes → Option (α × Bytes)) (w : Bytes) :
    memberValue value (Byte.colon :: w) = value w := by
  rw [memberValue, punct, skipWs_cons (by decide)]
  rfl

theorem locate_of_eq_some {α : Type} {value : Bytes → Option (α × Bytes)} {w r : Bytes} {x : α}
    (h : value w = some (x, r)) : locate value w = some (⟨w, x, r⟩, r) :=
  locate_eq_some.2 ⟨h, rfl, rfl⟩

section EnvelopeText

/-- What follows the version in an envelope with the data `d`. -/
def afterVersion (d : Bytes) : Bytes :=
  Byte.comma :: (fieldText VERSIONED_DATA_FIELD ++ (d ++ [Byte.rbrace]))

/-- What follows the opening brace. -/
def afterBrace (v : UInt32) (d : Bytes) : Bytes :=
  fieldText VERSION_FIELD ++ (decimal v.toNat ++ afterVersion d)

theorem envelopeText_eq (v : UInt32) (d : Bytes) :
    envelopeText v d = Byte.lbrace :: afterBrace v d := by
  simp [envelopeText, structText, afterBrace, afterVersion, List.intercalate]

variable {inRange : Bytes → Bool} {d : Bytes} {j : Json} (v : UInt32)

theorem nextKey_afterBrace (d : Bytes) : nextKey true (afterBrace v d) =
    some (some VERSION_FIELD, Byte.colon :: (decimal v.toNat ++ afterVersion d)) :=
  (nextKey_fieldText (by decide) _).1

theorem nextKey_afterVersion (d : Bytes) : nextKey false (afterVersion d) =
    some (some VERSIONED_DATA_FIELD, Byte.colon :: (d ++ [Byte.rbrace])) :=
  (nextKey_fieldText (by decide) _).2

theorem readValue_version (inRange : Bytes → Bool) (d : Bytes) :
    readValue inRange (recursionLimit - 1) (decimal v.toNat ++ afterVersion d) =
      some (.number (decimal v.toNat), afterVersion d) :=
  readValue_decimal 126 (Nat.lt_trans v.toNat_lt (by decide)) (follow_cons (by decide))

theorem token_envelopeText (d : Bytes) :
    token (envelopeText v d) = some (.openObject, afterBrace v d) := by
  rw [envelopeText_eq]
  exact token_openObject_iff.2 (skipWs_cons (by decide) _)

/-- **What the writer writes is an envelope**, of its version and of the text of its data. -/
theorem envelopeText_isEnvelope (h : document inRange d = some j) (hnesting : j.nesting ≤ 126) :
    ∃ version data, IsEnvelope inRange (envelopeText v d) version data ∧
      versionNumber version.value = some v ∧ ∃ t, TextAt inRange (Cursor.fromSlice d) t ∧
        TextAt inRange (memberCursor (envelopeText v d) data) t := by
  obtain ⟨t, r, hr, hread, ht, hdata, ht'⟩ :=
    readValue_append_rbrace (k := recursionLimit - 1) h (by decide) (Nat.lt_succ_of_le hnesting)
  have hend : nextKey false (r ++ [Byte.rbrace]) = some (none, [Byte.rbrace]) :=
    nextItem_of_close (skipWs_append_rbrace hr)
  refine ⟨⟨decimal v.toNat ++ afterVersion d, .number (decimal v.toNat), afterVersion d⟩,
    ⟨d ++ [Byte.rbrace], j, r ++ [Byte.rbrace]⟩,
    .inl (readMembers_eq_some.2 ⟨_, [], token_envelopeText v d, ?_, rfl⟩), ?_,
    t, ⟨j, r, hread, ht⟩, ⟨j, r ++ [Byte.rbrace], hdata, ht'⟩⟩
  · -- two members and the closing brace: three turns
    obtain ⟨n, hn⟩ : ∃ n, (afterBrace v d).length + 1 = n + 3 :=
      ⟨(afterBrace v d).length - 2, by
        simp only [afterBrace, afterVersion, List.length_append, List.length_cons]; omega⟩
    unfold members
    rw [hn]
    refine collect_cons (nextKey_afterBrace v d) ?_
      (collect_cons (nextKey_afterVersion d) ?_ (collect_nil hend rfl))
    · rw [memberValue_colon]
      exact locate_of_eq_some (readValue_version v inRange d)
    · rw [memberValue_colon]
      exact locate_of_eq_some hdata
  · simp only [versionNumber, decimal_bareInteger, Option.bind_some, if_pos v.toNat_lt,
      UInt32.ofNat_toNat]

/-- **An envelope takes a level of nesting**: around a document that leaves none, it is not a
    document. -/
theorem document_envelopeText (h : document inRange d = some j) (hnesting : 126 < j.nesting) :
    document inRange (envelopeText v d) = none := by
  rw [document_of_openObject (token_envelopeText v d)]
  refine Option.bind_eq_none_iff.2 fun (ms, r) hms => absurd hnesting (Nat.not_lt.2 ?_)
  unfold members at hms
  rcases collect_cases hms with ⟨-, _, hnext, -⟩ | ⟨_, _, _, _, r₁, rfl, hnext, hval, hrec⟩
  · rw [nextKey_afterBrace] at hnext; cases hnext
  rw [nextKey_afterBrace] at hnext
  cases hnext
  rw [memberValue_colon, readValue_version] at hval
  cases hval
  rw [show (afterBrace v d).length = ((afterBrace v d).length - 1) + 1 from
    (Nat.sub_add_cancel (by simp [afterBrace, fieldText])).symm] at hrec
  rcases collect_cases hrec with ⟨-, _, hnext, -⟩ | ⟨_, x, _, _, _, rfl, hnext, hval, -⟩
  · rw [nextKey_afterVersion] at hnext; cases hnext
  rw [nextKey_afterVersion] at hnext
  cases hnext
  rw [memberValue_colon] at hval
  -- the data is the document, read one level down
  have hlimit : j.nesting < recursionLimit := by
    obtain ⟨⟨j', r⟩, hread, hend⟩ := Option.bind_eq_some_iff.1 h
    simp only [Option.ite_none_right_eq_some, Option.some.injEq] at hend
    exact hend.2 ▸ readValue_nesting hread
  obtain ⟨_, _, -, -, -, hdata, -⟩ := readValue_append_rbrace h (Nat.le_refl _) hlimit
  obtain ⟨hval, hlt⟩ := (readValue_iff_nesting (Nat.pred_le recursionLimit)).1 hval
  rw [hdata] at hval
  cases hval
  exact Nat.le_of_lt_succ hlt

end EnvelopeText

namespace VersionSet

variable {J : SerdeJson} {S : VersionSet J}

/-- **Reading what the writer writes** is reading its data, at the version written. -/
theorem readJsonWith_envelopeText (hparse : S.ParseContract) (cx : S.Context) (v : UInt32)
    {d : Bytes} {j : Json} (h : J.document d = some j) (hnesting : j.nesting ≤ 126) :
    ∃ c t, TextAt J.inRange (Cursor.fromSlice d) t ∧ TextAt J.inRange c t ∧
      S.readJsonWith (envelopeText v d) cx =
        if v ∈ S.VERSIONS then S.readPayload v c cx
        else .err (.unsupportedVersion ⟨v, S.VERSIONS⟩) := by
  obtain ⟨version, data, henv, hv, t, ht, ht'⟩ := envelopeText_isEnvelope v h hnesting
  exact ⟨_, t, ht, ht', readJsonWith_of_isEnvelope cx henv hv
    fun hmem _ _ => hparse.oneValue hmem henv.valueAt_data⟩

end VersionSet

end VersionedEnvelope
