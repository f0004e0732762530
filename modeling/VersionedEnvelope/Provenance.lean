import VersionedEnvelope.Verdict

/-!
# What a successful read says

A reader returns a value with its origin, and says whether the document should be written again.
The callbacks are arbitrary here: what is said holds whatever they do.

* `readJsonWith_ok` — a value read from an envelope is the upgrade of what its version makes of
  its data.
* `Returned.cases` — the three origins.
* `needsRewrite_sound` — no rewrite is needed exactly when the origin is an envelope of the newest
  version, and then no conversion has been run.
-/

set_option autoImplicit false

namespace VersionedEnvelope

open Json

namespace VersionSet

variable {J : SerdeJson} {S : VersionSet J} {bytes : Bytes} {cx : S.Context}
  {output : ReadOutput S.Latest}

/-- One of the readers returned this. -/
def Returned (S : VersionSet J) (bytes : Bytes) (cx : S.Context) (output : ReadOutput S.Latest) :
    Prop :=
  S.readJsonWith bytes cx = .ok output ∨ S.readUntaggedJsonWith bytes cx = .ok output ∨
  (∃ fallback, S.readJsonOrElseWith bytes cx fallback = .ok output) ∨
  S.readJsonOrUntaggedWith bytes cx = .ok output

/-- **A value read from an envelope** is the upgrade of what its version makes of its data. -/
theorem readJsonWith_ok (h : S.readJsonWith bytes cx = .ok output) :
    ∃ version data v x c', IsEnvelope J.inRange bytes version data ∧
      versionNumber version.value = some v ∧ v ∈ S.VERSIONS ∧
      S.parse v (memberCursor bytes data) = .ok (x, c') ∧
      S.upgrade x v cx = .ok output.value ∧
      output.origin = .envelope v ∧ output.latest = S.newest := by
  rcases parse_cases J bytes with ⟨e, he⟩ | ⟨version, data, v, henv, hv⟩
  · rw [readJsonWith_of_parse_err cx he] at h
    cases h
  · have hparse := (Envelope.parse_of_isEnvelope henv).1 v hv
    by_cases hmem : v ∈ S.VERSIONS
    · rw [readJsonWith_of_mem cx hparse hmem] at h
      obtain ⟨x, hx, h⟩ := Exec.bind_eq_ok.1 h
      obtain ⟨l, hl, h⟩ := Exec.bind_eq_ok.1 h
      cases h
      obtain ⟨c', hp⟩ := henv.deserializeField_ok .data (Exec.mapErr_eq_ok.1 hx)
      exact ⟨version, data, v, x, c', henv, hv, hmem, hp, Exec.mapErr_eq_ok.1 hl, rfl, rfl⟩
    · rw [readJsonWith_of_not_mem cx hparse hmem] at h
      cases h

/-- **The three origins.** -/
theorem Returned.cases (h : S.Returned bytes cx output) :
    S.readJsonWith bytes cx = .ok output ∨ (∃ v ∈ S.VERSIONS, output.origin = .untagged v) ∨
      ∃ reason, output.origin = .fallback reason := by
  rcases h with h | h | ⟨fallback, h⟩ | h
  · exact .inl h
  · exact .inr (.inl (readUntaggedJsonWith_origin h))
  · rcases S.fallback_cases bytes cx with ⟨reason, -, helse, -⟩ | ⟨-, helse, -⟩
    · rw [helse] at h
      cases hf : fallback reason <;> rw [hf] at h <;> cases h
      exact .inr (.inr ⟨reason, rfl⟩)
    · rw [helse] at h
      exact .inl (Exec.mapErr_eq_ok.1 h)
  · rcases S.fallback_cases bytes cx with ⟨reason, -, -, huntagged⟩ | ⟨-, -, huntagged⟩
    · rw [huntagged] at h
      exact .inr (.inl (readUntaggedJsonWith_origin (Exec.mapErr_eq_ok.1 h)))
    · rw [huntagged] at h
      exact .inl (Exec.mapErr_eq_ok.1 h)

/-- **What the origin and `needs_rewrite` say.**  The version of an origin is listed; no rewrite is
    needed exactly when the origin is an envelope of the newest version; and a value from an
    envelope is the upgrade of its payload, in one `Done` step when no rewrite is needed, and with
    a conversion when one is. -/
theorem needsRewrite_sound (h : S.Returned bytes cx output) :
    (∀ v, output.origin = .envelope v ∨ output.origin = .untagged v → v ∈ S.VERSIONS) ∧
    (output.needsRewrite = false ↔ output.origin = .envelope S.newest) ∧
    ∀ v, output.origin = .envelope v → ∃ version data x c',
      IsEnvelope J.inRange bytes version data ∧ versionNumber version.value = some v ∧
      S.parse v (memberCursor bytes data) = .ok (x, c') ∧ S.upgrade x v cx = .ok output.value ∧
      (output.needsRewrite = false → S.stepCalls x v cx = [x] ∧
        S.step x cx = .done output.value ∧ S.nextSteps x v cx = 0) ∧
      (output.needsRewrite = true → 1 ≤ S.nextSteps x v cx) := by
  rcases h.cases with hread | ⟨v, hv, ho⟩ | ⟨reason, ho⟩
  · obtain ⟨version, data, v, x, c', henv, hversion, hv, hp, hup, ho, hlatest⟩ :=
      readJsonWith_ok hread
    have hrewrite : output.needsRewrite = decide (v < S.newest) := by
      simp only [ReadOutput.needsRewrite, ho, hlatest]
    have hnewest : output.needsRewrite = false ↔ v = S.newest := by
      rw [hrewrite, decide_eq_false_iff_not, not_lt]
      exact ⟨(S.le_newest hv).antisymm, fun h => h.ge⟩
    refine ⟨fun u hu => ?_, ?_, fun u hu => ?_⟩
    · rw [ho] at hu
      rcases hu with hu | hu <;> cases hu
      exact hv
    · rw [hnewest, ho, Origin.envelope.injEq]
    · rw [ho] at hu
      cases hu
      refine ⟨version, data, x, c', henv, hversion, hp, hup, fun hno => ?_, fun hyes => ?_⟩
      · obtain rfl := hnewest.1 hno
        obtain ⟨hcalls, hdone⟩ := stepCalls_newest hup
        refine ⟨hcalls, hdone, ?_⟩
        rw [nextSteps, hcalls, List.countP_singleton, hdone]
        rfl
      · refine one_le_nextSteps (fun heq => ?_) hup
        rw [hnewest.2 heq] at hyes
        cases hyes
  · refine ⟨fun u hu => ?_, by simp [ReadOutput.needsRewrite, ho], fun u hu => ?_⟩
    · rw [ho] at hu
      rcases hu with hu | hu <;> cases hu
      exact hv
    · rw [ho] at hu
      cases hu
  · refine ⟨fun u hu => ?_, by simp [ReadOutput.needsRewrite, ho], fun u hu => ?_⟩
    · rw [ho] at hu
      rcases hu with hu | hu <;> cases hu
    · rw [ho] at hu
      cases hu

theorem needsRewrite_sound_stairs : ∃ x : UInt32,
    stairs.readJsonWith (ascii "\x7b\"version\":1,\"versioned_data\":1\x7d") () =
      .ok ⟨(4 : UInt32), .envelope 1, 4⟩ ∧
    stairs.upgrade x 1 () = .ok (4 : UInt32) ∧ 1 ≤ stairs.nextSteps x 1 () := by
  have hread : stairs.readJsonWith (ascii "\x7b\"version\":1,\"versioned_data\":1\x7d") () =
      .ok ⟨(4 : UInt32), .envelope 1, 4⟩ := rfl
  obtain ⟨-, -, henvelope⟩ := needsRewrite_sound (.inl hread)
  obtain ⟨_, _, x, _, -, -, -, hup, -, hyes⟩ := henvelope 1 rfl
  exact ⟨x, hread, hup, hyes rfl⟩

end VersionSet

end VersionedEnvelope
