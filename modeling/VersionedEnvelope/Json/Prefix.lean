import VersionedEnvelope.Json.Reader

/-!
# JSON text: parts of a document

An object ends where its last brace says, so that nothing that follows it belongs to it.

* `readValue_object_append` — an object is read alike whatever follows it.
* `document_append` — after an object document, only whitespace may follow.
* `document_torn` — what an object document starts with is no document, unless it is all of it
  but whitespace.
-/

set_option autoImplicit false

namespace Json

variable {inRange : Bytes → Bool}

/-- **An object is read alike whatever follows it**: its closing brace ends it. -/
theorem readValue_object_append {d : Nat} {w r : Bytes} {ms : List (String × Json)}
    (h : readValue inRange d w = some (.object ms, r)) (s : Bytes) :
    readValue inRange d (w ++ s) = some (.object ms, r ++ s) := by
  cases d with
  | zero => cases h
  | succ d =>
    rcases readValue_cases h with ⟨t, -, hj⟩ | ⟨-, r₀, xs, -, -, hj⟩ | ⟨hd, r₀, ms', ht, hm, hj⟩
    · cases t <;> simp [Token.scalar] at hj
    · cases hj
    · cases hj
      obtain ⟨u, rfl, hext⟩ := collect_reads_all openKey_opens
        (memberValue_reads (readValue_reads d)) (by decide) hm
      have hskip := token_openObject_iff.1 ht
      have hskip' : skipWs (w ++ s) = Byte.lbrace :: (u ++ (r ++ s)) := by
        rw [skipWs_append_right (by rw [hskip]; exact List.cons_ne_nil _ _), hskip]
        simp
      exact readValue_object hd (token_openObject_iff.2 hskip') (hext (r ++ s))

/-- **After an object document, only whitespace may follow.** -/
theorem document_append {w : Bytes} {ms : List (String × Json)}
    (h : document inRange w = some (.object ms)) (s : Bytes) :
    document inRange (w ++ s) = if skipWs s = [] then some (.object ms) else none := by
  obtain ⟨⟨j, r⟩, hread, hend⟩ := Option.bind_eq_some_iff.1 h
  simp only [Option.ite_none_right_eq_some, Option.some.injEq] at hend
  obtain ⟨hr, rfl⟩ := hend
  obtain ⟨ws, hws, hspace⟩ := exists_skipWs r
  rw [hr, List.append_nil] at hws
  have hskip : skipWs (r ++ s) = skipWs s := by rw [hws, skipWs_append hspace]
  rw [document, readValue_object_append hread s, Option.bind_some]
  simp only [hskip]

/-- The first byte of an object document, past whitespace, is an opening brace. -/
theorem skipWs_of_document {w : Bytes} {ms : List (String × Json)}
    (h : document inRange w = some (.object ms)) : ∃ r, skipWs w = Byte.lbrace :: r := by
  obtain ⟨ls, hls, -⟩ := document_object_iff.1 h
  obtain ⟨r, -, ht, -⟩ := readMembers_eq_some.1 hls
  exact ⟨r, token_openObject_iff.1 ht⟩

/-- **A torn object document is no document**: what is left out is more than whitespace. -/
theorem document_torn {p s : Bytes} {ms : List (String × Json)}
    (h : document inRange (p ++ s) = some (.object ms)) (hs : skipWs s ≠ []) :
    document inRange p = none := by
  cases hp : document inRange p with
  | none => rfl
  | some j =>
    -- it would be an object too, with more than whitespace after it
    obtain ⟨r, hr⟩ := skipWs_of_document h
    obtain ⟨r', hr'⟩ : ∃ r', skipWs p = Byte.lbrace :: r' := by
      obtain ⟨⟨j', r₀⟩, hread, -⟩ := Option.bind_eq_some_iff.1 hp
      obtain ⟨t, hne, ht, -⟩ := readValue_reads _ _ _ _ hread
      obtain ⟨b, t, rfl⟩ := List.exists_cons_of_ne_nil hne
      rw [skipWs_append_right (by rw [ht]; exact List.cons_ne_nil _ _), ht] at hr
      cases hr
      exact ⟨_, ht⟩
    obtain ⟨ms', rfl⟩ : ∃ ms', j = .object ms' := by
      rw [document_of_openObject (token_openObject_iff.2 hr')] at hp
      obtain ⟨⟨ms', r''⟩, -, hend⟩ := Option.bind_eq_some_iff.1 hp
      simp only [Option.ite_none_right_eq_some, Option.some.injEq] at hend
      exact ⟨ms', hend.2.symm⟩
    rw [document_append hp, if_neg hs] at h
    cases h

end Json
