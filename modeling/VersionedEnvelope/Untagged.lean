import VersionedEnvelope.RoundTrip

/-!
# Bare payloads and enveloped payloads

A payload may be read without an envelope, by the newest version that parses it, or inside an
envelope that names its version.  The two paths agree on what it means.

* `tryVersions_of_picks`, `tryVersions_of_refusedByAll` — the loop over the versions picks the
  newest one that accepts the document, or reports every attempt.
* `readUntaggedJsonWith_outcome` — so does the untagged reader, on what is JSON.
* `readJsonWith_envelopeText_of_ok`, `readJsonWith_envelopeText_of_err` — the envelope of a version
  does with the payload what that version does with it alone.
* `untagged_agrees` — the version that the untagged reader picks reads the same value in an
  envelope, and every newer one refuses it there too.
-/

set_option autoImplicit false

namespace VersionedEnvelope

open Json

namespace VersionSet

variable {J : SerdeJson} {S : VersionSet J} {d : Bytes} {j : Json} {cx : S.Context} {u v : UInt32}

/-! ## The loop over the versions -/

theorem fromSlice_settles (hparse : S.ParseContract) (hd : J.document d = some j)
    (hv : v ∈ S.VERSIONS) : (J.fromSlice (S.parse v) d).Settles := by
  obtain ⟨⟨j', r⟩, hread, -⟩ := Option.bind_eq_some_iff.1 hd
  have hsettles := hparse.settles hv (c := Cursor.fromSlice d) hread
  rw [fromSlice_of_document hd fun x c' r hj => hparse.oneValue hv hj]
  exact hsettles.map _

/-- One version's attempt at the whole document. -/
abbrev attempt (S : VersionSet J) (bytes : Bytes) (v : UInt32) : Exec J.Error S.Value :=
  J.fromSlice (S.parse v) bytes

/-- The newest version that accepts the document, and the value it makes of it. -/
structure Picks (S : VersionSet J) (bytes : Bytes) (v : UInt32) (x : S.Value) : Prop where
  mem : v ∈ S.VERSIONS
  accepts : S.attempt bytes v = .ok x
  newer : ∀ u ∈ S.VERSIONS, v < u → ∃ e, S.attempt bytes u = .err e

/-- Every listed version refuses the document. -/
def RefusedByAll (S : VersionSet J) (bytes : Bytes) : Prop :=
  ∀ u ∈ S.VERSIONS, ∃ e, S.attempt bytes u = .err e

/-- **The loop goes past the versions that refuse**, and keeps their errors in order. -/
theorem tryVersions_of_refused (bytes : Bytes) (cx : S.Context) : ∀ {versions : List UInt32},
    (∀ u ∈ versions, ∃ e, S.attempt bytes u = .err e) →
    ∃ failed : List (VersionAttempt J.Error), failed.map (·.version) = versions ∧
      (∀ a ∈ failed, S.attempt bytes a.version = .err a.error) ∧
      ∀ older attempts, S.tryVersions bytes cx (versions ++ older) attempts =
        S.tryVersions bytes cx older (attempts ++ failed) := by
  intro versions
  induction versions with
  | nil =>
    intro _
    exact ⟨[], rfl, by simp, fun older attempts => by rw [List.append_nil, List.nil_append]⟩
  | cons version versions ih =>
    intro h
    obtain ⟨⟨e, he⟩, hrest⟩ := List.forall_mem_cons.1 h
    obtain ⟨failed, hversions, herrors, hloop⟩ := ih hrest
    refine ⟨⟨version, e⟩ :: failed, by rw [List.map_cons, hversions],
      List.forall_mem_cons.2 ⟨he, herrors⟩, fun older attempts => ?_⟩
    rw [List.cons_append, tryVersions, show J.fromSlice (S.parse version) bytes = _ from he]
    simp only [hloop, List.append_assoc, List.singleton_append]

/-- The loop stops at a version that accepts. -/
theorem tryVersions_of_accepts (cx : S.Context) {bytes : Bytes} {x : S.Value}
    (h : S.attempt bytes v = .ok x) (older : List UInt32)
    (attempts : List (VersionAttempt J.Error)) :
    S.tryVersions bytes cx (v :: older) attempts =
      (fun l => ⟨l, .untagged v, S.newest⟩) <$> (S.upgrade x v cx).mapErr .conversion := by
  rw [tryVersions, show J.fromSlice (S.parse v) bytes = _ from h]
  simp only [latestVersion_eq]
  cases S.upgrade x v cx <;> rfl

/-- In the order of the loop, what comes before a version is what is newer. -/
theorem mem_newer_iff {newer older : List UInt32} (h : S.VERSIONS.reverse = newer ++ v :: older) :
    u ∈ newer ↔ u ∈ S.VERSIONS ∧ v < u := by
  have hdesc : (newer ++ v :: older).Pairwise (· > ·) := by
    rw [← h, List.pairwise_reverse]
    exact S.ascending
  obtain ⟨-, hafter, hbefore⟩ := List.pairwise_append.1 hdesc
  have hmem : u ∈ S.VERSIONS ↔ u ∈ newer ∨ u = v ∨ u ∈ older := by
    rw [← List.mem_reverse, h, List.mem_append, List.mem_cons]
  rw [hmem]
  constructor
  · exact fun hu => ⟨.inl hu, hbefore u hu v (List.mem_cons_self ..)⟩
  · rintro ⟨hu | rfl | hu, hlt⟩
    · exact hu
    · exact absurd hlt (lt_irrefl u)
    · exact absurd hlt (lt_asymm (List.rel_of_pairwise_cons hafter hu))

/-- **The loop picks the newest version that accepts**; what becomes of the conversion is the
    outcome. -/
theorem tryVersions_of_picks (cx : S.Context) {bytes : Bytes} {x : S.Value}
    (h : S.Picks bytes v x) (attempts : List (VersionAttempt J.Error)) :
    S.tryVersions bytes cx S.VERSIONS.reverse attempts =
      (fun l => ⟨l, .untagged v, S.newest⟩) <$> (S.upgrade x v cx).mapErr .conversion := by
  obtain ⟨newer, older, hsplit⟩ := List.append_of_mem (List.mem_reverse.2 h.mem)
  obtain ⟨failed, -, -, hloop⟩ := tryVersions_of_refused bytes cx fun u hu =>
    h.newer u ((mem_newer_iff hsplit).1 hu).1 ((mem_newer_iff hsplit).1 hu).2
  rw [hsplit, hloop, tryVersions_of_accepts cx h.accepts]

/-- **Where every version refuses, the loop reports every attempt**, newest first. -/
theorem tryVersions_of_refusedByAll {bytes : Bytes} (cx : S.Context) (h : S.RefusedByAll bytes) :
    ∃ attempts : List (VersionAttempt J.Error), attempts.map (·.version) = S.VERSIONS.reverse ∧
      (∀ a ∈ attempts, S.attempt bytes a.version = .err a.error) ∧
      S.tryVersions bytes cx S.VERSIONS.reverse [] = .err (.noMatchingVersion ⟨attempts⟩) := by
  obtain ⟨failed, hversions, herrors, hloop⟩ := tryVersions_of_refused bytes cx fun u hu =>
    h u (List.mem_reverse.1 hu)
  refine ⟨failed, hversions, herrors, ?_⟩
  have hend := hloop [] []
  rw [List.append_nil, List.nil_append] at hend
  exact hend

/-- One of the two happens, where every attempt returns. -/
theorem picks_or_refused {bytes : Bytes}
    (h : ∀ v ∈ S.VERSIONS, (S.attempt bytes v).Settles) :
    (∃ v x, S.Picks bytes v x) ∨ S.RefusedByAll bytes := by
  classical
  let accepted := S.VERSIONS.filter fun v => decide (∃ x, S.attempt bytes v = .ok x)
  have hmem : ∀ u, u ∈ accepted ↔ u ∈ S.VERSIONS ∧ ∃ x, S.attempt bytes u = .ok x := fun u => by
    simp only [accepted, List.mem_filter, decide_eq_true_eq]
  have hrefused : ∀ u ∈ S.VERSIONS, u ∉ accepted → ∃ e, S.attempt bytes u = .err e := by
    intro u hu hnot
    rcases (h u hu).cases with hx | he
    · exact absurd ((hmem u).2 ⟨hu, hx⟩) hnot
    · exact he
  by_cases hnil : accepted = []
  · refine .inr fun u hu => hrefused u hu ?_
    rw [hnil]
    exact List.not_mem_nil
  · -- the accepted versions ascend, so the last of them is the newest
    have hasc : Ascending accepted := S.ascending.filter _
    obtain ⟨hv, x, hx⟩ := (hmem _).1 (List.getLast_mem hnil)
    refine .inl ⟨accepted.getLast hnil, x, hv, hx, fun u hu hlt => hrefused u hu fun hacc => ?_⟩
    exact absurd (hasc.le_getLast hacc hnil) (not_le.2 hlt)

/-! ## What the untagged reader returns -/

/-- **The outcome of an untagged read.**  What is not JSON is refused as such, and nothing else is;
    the newest version that accepts the document is upgraded, whatever comes of it; and where no
    version accepts, every attempt is reported, newest first. -/
theorem readUntaggedJsonWith_outcome (hstep : S.StepContract) (bytes : Bytes) (cx : S.Context) :
    (∀ e, S.readUntaggedJsonWith bytes cx = .err (.json e) ↔ validateJson J bytes = .err e) ∧
    ((∀ e, validateJson J bytes ≠ .err e) →
      (∀ v x, S.Picks bytes v x →
        S.readUntaggedJsonWith bytes cx =
          (fun l => ⟨l, .untagged v, S.newest⟩) <$> (S.upgrade x v cx).mapErr .conversion ∧
        (S.version x = v →
          (∃ output, S.readUntaggedJsonWith bytes cx = .ok output ∧
            output.origin = .untagged v ∧ output.needsRewrite = true) ∨
          ∃ c, S.readUntaggedJsonWith bytes cx = .err (.conversion c) ∧ c.original = v) ∧
        (S.version x ≠ v → ∃ m, S.readUntaggedJsonWith bytes cx = .panics m)) ∧
      (S.RefusedByAll bytes → ∃ attempts : List (VersionAttempt J.Error),
        S.readUntaggedJsonWith bytes cx = .err (.noMatchingVersion ⟨attempts⟩) ∧
        attempts.map (·.version) = S.VERSIONS.reverse ∧
        (attempts.map (·.version)).Pairwise (· > ·) ∧
        ∀ a ∈ attempts, S.attempt bytes a.version = .err a.error) ∧
      ((∀ v ∈ S.VERSIONS, (S.attempt bytes v).Settles) →
        (∃ v x, S.Picks bytes v x) ∨ S.RefusedByAll bytes)) := by
  refine ⟨fun e => readUntaggedJsonWith_eq_json_iff, fun hnone => ?_⟩
  have hvalid : validateJson J bytes = .ok () := by
    rcases (validateJson_settles J bytes).cases with ⟨u, hu⟩ | ⟨e, he⟩
    · exact hu
    · exact absurd he (hnone e)
  refine ⟨fun v x hpicks => ?_, fun hall => ?_, picks_or_refused⟩
  · have hread : S.readUntaggedJsonWith bytes cx =
        (fun l => ⟨l, .untagged v, S.newest⟩) <$> (S.upgrade x v cx).mapErr .conversion := by
      rw [readUntaggedJsonWith_of_valid cx hvalid]
      exact tryVersions_of_picks cx hpicks []
    refine ⟨hread, fun hx => ?_, fun hx => ?_⟩
    · rw [hread]
      rcases (hstep.upgrade_settles cx hx hpicks.mem).cases with ⟨l, hl⟩ | ⟨c, hc⟩
      · rw [hl]
        exact .inl ⟨_, rfl, rfl, rfl⟩
      · rw [hc]
        exact .inr ⟨c, rfl, upgrade_err_original hc⟩
    · obtain ⟨m, hm⟩ := upgrade_of_ne cx hx
      rw [hread, hm]
      exact ⟨m, rfl⟩
  · obtain ⟨attempts, hversions, herrors, hloop⟩ := tryVersions_of_refusedByAll cx hall
    refine ⟨attempts, ?_, hversions, ?_, herrors⟩
    · rw [readUntaggedJsonWith_of_valid cx hvalid]
      exact hloop
    · rw [hversions, List.pairwise_reverse]
      exact S.ascending

theorem readUntaggedJsonWith_outcome_counters :
    ∃ attempts : List (VersionAttempt Unit), attempts.map (·.version) = [4, 3, 1] ∧
      Declaration.counters_accepted.versionSet.readUntaggedJsonWith (ascii "null") () =
        .err (.noMatchingVersion ⟨attempts⟩) := by
  have hrefused : Declaration.counters_accepted.versionSet.RefusedByAll (ascii "null") := by
    intro u hu
    have hu : u ∈ ([1, 3, 4] : List UInt32) := hu
    simp only [List.mem_cons, List.not_mem_nil, or_false] at hu
    rcases hu with rfl | rfl | rfl <;> exact ⟨(), rfl⟩
  have hvalid : ∀ e, validateJson (SerdeJson.reference fun _ => true) (ascii "null") ≠ .err e := by
    intro e h
    rw [show validateJson (SerdeJson.reference fun _ => true) (ascii "null") = .ok () from rfl] at h
    cases h
  obtain ⟨attempts, hread, hversions, -⟩ := ((readUntaggedJsonWith_outcome
    Declaration.counters_accepted.stepContract (ascii "null") ()).2 hvalid).2.1 hrefused
  exact ⟨attempts, hversions, hread⟩

/-- An untagged read got as far as the conversions from version `v`: it returned what they made of
    the document, or failed in one of them. -/
def UntaggedAt {T : Type} (v : UInt32) (result : Exec (UntaggedError J.Error) (ReadOutput T)) :
    Prop :=
  (∃ output, result = .ok output ∧ output.origin = .untagged v) ∨
    ∃ c, result = .err (.conversion c) ∧ c.original = v

theorem document_of_untaggedAt {bytes : Bytes}
    (h : UntaggedAt v (S.readUntaggedJsonWith bytes cx)) : ∃ j, J.document bytes = some j := by
  cases hd : J.document bytes with
  | some j => exact ⟨j, rfl⟩
  | none =>
    have hreturns := validateJson_returns J bytes
    rw [hd] at hreturns
    obtain ⟨e, he⟩ := hreturns.none
    rw [readUntaggedJsonWith_eq_json_iff.2 he] at h
    rcases h with ⟨_, h, -⟩ | ⟨_, h, -⟩ <;> cases h

/-- A document whose newest accepting version is `v` is read there. -/
theorem untaggedAt_of_picks (hstep : S.StepContract) {bytes : Bytes} {x : S.Value}
    (hvalid : validateJson J bytes = .ok ()) (hpicks : S.Picks bytes v x) (hx : S.version x = v)
    (cx : S.Context) : UntaggedAt v (S.readUntaggedJsonWith bytes cx) := by
  rw [readUntaggedJsonWith_of_valid cx hvalid, tryVersions_of_picks cx hpicks]
  rcases (hstep.upgrade_settles cx hx hpicks.mem).cases with ⟨l, hl⟩ | ⟨c, hc⟩
  · rw [hl]
    exact .inl ⟨_, rfl, rfl⟩
  · rw [hc]
    exact .inr ⟨c, rfl, upgrade_err_original hc⟩

/-- **A document that is read at `v`** has `v` for its newest accepting version. -/
theorem exists_picks_of_untaggedAt {bytes : Bytes} (hvalid : validateJson J bytes = .ok ())
    (hsettles : ∀ v ∈ S.VERSIONS, (S.attempt bytes v).Settles)
    (h : UntaggedAt v (S.readUntaggedJsonWith bytes cx)) : ∃ x, S.Picks bytes v x := by
  rw [readUntaggedJsonWith_of_valid cx hvalid] at h
  rcases picks_or_refused hsettles with ⟨w, x, hpicks⟩ | hall
  · rw [tryVersions_of_picks cx hpicks] at h
    cases hup : S.upgrade x w cx with
    | ok l =>
      rw [hup] at h
      rcases h with ⟨output, houtput, ho⟩ | ⟨c, hc, -⟩
      · cases houtput
        cases ho
        exact ⟨x, hpicks⟩
      · cases hc
    | err c =>
      rw [hup] at h
      rcases h with ⟨output, houtput, -⟩ | ⟨c', hc', rfl⟩
      · cases houtput
      · cases hc'
        rw [upgrade_err_original hup]
        exact ⟨x, hpicks⟩
    | panics m =>
      rw [hup] at h
      rcases h with ⟨_, h, -⟩ | ⟨_, h, -⟩ <;> cases h
    | hang =>
      rw [hup] at h
      rcases h with ⟨_, h, -⟩ | ⟨_, h, -⟩ <;> cases h
  · obtain ⟨attempts, -, -, heq⟩ := tryVersions_of_refusedByAll cx hall
    rw [heq] at h
    rcases h with ⟨_, h, -⟩ | ⟨_, h, -⟩ <;> cases h

/-! ## The envelope of one version -/

section Envelope

variable (hparse : S.ParseContract) (hsame : S.SameText) (hd : J.document d = some j)
  (hnesting : j.nesting ≤ 126) (hv : v ∈ S.VERSIONS) (cx : S.Context)
include hparse hsame hd hnesting hv

theorem readJsonWith_envelopeText_of_ok {x : S.Value} (hx : J.fromSlice (S.parse v) d = .ok x) :
    S.readJsonWith (envelopeText v d) cx =
      (fun l => ⟨l, .envelope v, S.newest⟩) <$> (S.upgrade x v cx).mapErr .conversion := by
  obtain ⟨c, t, ht, hc, hread⟩ := readJsonWith_envelopeText hparse cx v hd hnesting
  obtain ⟨c', hp⟩ := (parse_of_fromSlice hparse hsame hd hv ht hc).1 x hx
  rw [hread, if_pos hv]
  simp only [readPayload, hp, Exec.mapErr_ok, Exec.ok_bind]
  cases S.upgrade x v cx <;> rfl

theorem readJsonWith_envelopeText_of_err {e : J.Error}
    (he : J.fromSlice (S.parse v) d = .err e) :
    ∃ e', S.readJsonWith (envelopeText v d) cx = .err (.data v e') := by
  obtain ⟨c, t, ht, hc, hread⟩ := readJsonWith_envelopeText hparse cx v hd hnesting
  obtain ⟨e', hp⟩ := (parse_of_fromSlice hparse hsame hd hv ht hc).2 e he
  refine ⟨e', ?_⟩
  rw [hread, if_pos hv]
  simp only [readPayload, hp, Exec.mapErr_err, Exec.err_bind]

end Envelope

/-! ## The two paths -/

/-- **The untagged path and the envelope path agree.**  The version that the untagged reader
    picks reads the same value, or fails in the same conversion, in an envelope; every newer
    version refuses the data there; and where no version matches, all of them do. -/
theorem untagged_agrees (hparse : S.ParseContract) (hsame : S.SameText)
    (hd : J.document d = some j) (hnesting : j.nesting ≤ 126) (cx : S.Context) :
    (∀ output, S.readUntaggedJsonWith d cx = .ok output → ∃ v,
      output.origin = .untagged v ∧
      S.readJsonWith (envelopeText v d) cx = .ok { output with origin := .envelope v } ∧
      ∀ u ∈ S.VERSIONS, v < u → ∃ e, S.readJsonWith (envelopeText u d) cx = .err (.data u e)) ∧
    (∀ c, S.readUntaggedJsonWith d cx = .err (.conversion c) →
      S.readJsonWith (envelopeText c.original d) cx = .err (.conversion c) ∧
      ∀ u ∈ S.VERSIONS, c.original < u →
        ∃ e, S.readJsonWith (envelopeText u d) cx = .err (.data u e)) ∧
    (∀ e, S.readUntaggedJsonWith d cx = .err (.noMatchingVersion e) →
      ∀ u ∈ S.VERSIONS, ∃ e, S.readJsonWith (envelopeText u d) cx = .err (.data u e)) := by
  have hrefused : ∀ u ∈ S.VERSIONS, (∃ e, S.attempt d u = .err e) →
      ∃ e, S.readJsonWith (envelopeText u d) cx = .err (.data u e) := fun u hu ⟨e, he⟩ =>
    readJsonWith_envelopeText_of_err hparse hsame hd hnesting hu cx he
  rw [readUntaggedJsonWith_of_valid cx (validateJson_of_document hd)]
  rcases picks_or_refused fun v hv => fromSlice_settles hparse hd hv with ⟨v, x, hpicks⟩ | hall
  · have hread := readJsonWith_envelopeText_of_ok hparse hsame hd hnesting hpicks.mem cx
      hpicks.accepts
    have hnewer : ∀ u ∈ S.VERSIONS, v < u →
        ∃ e, S.readJsonWith (envelopeText u d) cx = .err (.data u e) := fun u hu hlt =>
      hrefused u hu (hpicks.newer u hu hlt)
    rw [tryVersions_of_picks cx hpicks]
    cases hup : S.upgrade x v cx with
    | ok l =>
      rw [hup] at hread
      refine ⟨fun output houtput => ?_, fun c hc => (by cases hc), fun e he => (by cases he)⟩
      cases houtput
      exact ⟨v, rfl, hread, hnewer⟩
    | err c =>
      rw [hup] at hread
      obtain rfl := upgrade_err_original hup
      refine ⟨fun output houtput => (by cases houtput), fun c' hc' => ?_,
        fun e he => (by cases he)⟩
      cases hc'
      exact ⟨hread, hnewer⟩
    | panics m =>
      exact ⟨fun _ h => (by cases h), fun _ h => (by cases h), fun _ h => (by cases h)⟩
    | hang =>
      exact ⟨fun _ h => (by cases h), fun _ h => (by cases h), fun _ h => (by cases h)⟩
  · obtain ⟨attempts, -, -, heq⟩ := tryVersions_of_refusedByAll cx hall
    rw [heq]
    exact ⟨fun output houtput => (by cases houtput), fun c hc => (by cases hc),
      fun _ _ u hu => hrefused u hu (hall u hu)⟩

theorem untagged_agrees_counters :
    Declaration.counters_accepted.versionSet.readUntaggedJsonWith (decimal (7 : UInt32).toNat) () =
      .ok ⟨(7 : UInt32), .untagged 4, 4⟩ ∧
    Declaration.counters_accepted.versionSet.readJsonWith
        (envelopeText 4 (decimal (7 : UInt32).toNat)) () =
      .ok ⟨(7 : UInt32), .envelope 4, 4⟩ := by
  have huntagged : Declaration.counters_accepted.versionSet.readUntaggedJsonWith
      (decimal (7 : UInt32).toNat) () = .ok ⟨(7 : UInt32), .untagged 4, 4⟩ := rfl
  obtain ⟨v, ho, hread, -⟩ := (untagged_agrees
    (Declaration.versionSet_parseContract Declaration.counters_accepted.wellFormed)
    (Declaration.counters_sameText.versionSet Declaration.counters_accepted.wellFormed)
    (document_decimal 7) (by simp [nesting]) ()).1 _ huntagged
  cases ho
  exact ⟨huntagged, hread⟩

end VersionSet

end VersionedEnvelope
