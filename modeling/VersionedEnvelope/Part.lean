import VersionedEnvelope.Untagged

/-!
# Parts of a version set

A version set that has the newest versions of another one, with the same payloads and the same
conversions.  On what it lists it reads what the other one reads.

* `Part` — the one inside the other: how its values and its results are those of the whole.
* `Part.upgrade` — the conversions of the part are those of the whole.
* `Part.readJsonWith` — on an envelope of a version of the part, the two agree; on any other, the
  part does not support the version.
* `Part.readUntaggedJsonWith` — they agree on a bare payload that the part picks a version for.
* `Part.readJsonWith_of_eq` and its like — a part that has every version reads as the whole does.
-/

set_option autoImplicit false

namespace VersionedEnvelope

open Json Ladder

namespace VersionSet

variable {J : SerdeJson} {S' S : VersionSet J}

/-- `S'` has the newest versions of `S`, with the same payloads and conversions. -/
structure Part (S' S : VersionSet J) where
  context : S'.Context → S.Context
  keep : S'.Value → S.Value
  out : S'.Latest → S.Latest
  versions : S'.VERSIONS <:+ S.VERSIONS
  version : ∀ x, S.version (keep x) = S'.version x
  parse : ∀ {v : UInt32}, v ∈ S'.VERSIONS → ∀ c, S.parse v c = Prod.map keep id <$> S'.parse v c
  /-- What the part parses has the version asked for. -/
  parsed : ∀ {v : UInt32} {c c' : Cursor} {x : S'.Value}, v ∈ S'.VERSIONS →
    S'.parse v c = .ok (x, c') → S'.version x = v
  rung : ∀ cx x, S.rung (context cx) (keep x) = (S'.rung cx x).map keep out

namespace Part

variable (p : Part S' S) {bytes : Bytes} {cx : S'.Context} {u v : UInt32} {c : Cursor}
  {x : S'.Value}

include p

/-! ## The versions -/

theorem mem (hv : v ∈ S'.VERSIONS) : v ∈ S.VERSIONS := p.versions.subset hv

theorem newest_eq : S.newest = S'.newest :=
  (p.versions.getLast S'.versions_ne_nil).symm

/-- What is newer than a version of the part is a version of the part. -/
theorem mem_of_lt (hv : v ∈ S'.VERSIONS) (hu : u ∈ S.VERSIONS) (hlt : v < u) :
    u ∈ S'.VERSIONS := by
  obtain ⟨older, holder⟩ := p.versions
  rw [← holder] at hu
  rcases List.mem_append.1 hu with h | h
  · -- what the part lacks is older than all it has
    have hasc : Ascending (older ++ S'.VERSIONS) := holder ▸ S.ascending
    exact absurd ((List.pairwise_append.1 hasc).2.2 u h v hv) (not_lt.2 hlt.le)
  · exact h

/-! ## The conversions -/

/-- **The conversions of the part are those of the whole.** -/
theorem upgrade (hstep' : S'.StepContract) (hstep : S.StepContract) (hx : S'.version x = v)
    (hv : v ∈ S'.VERSIONS) :
    S.upgrade (p.keep x) v (p.context cx) = p.out <$> S'.upgrade x v cx := by
  obtain ⟨r, hr⟩ := hstep'.exists_climbs cx (x := x) (hx ▸ hv)
  have hr' := hr.map (p.rung cx)
  rw [hstep'.upgrade_eq_of_climbs hx hv hr,
    hstep.upgrade_eq_of_climbs ((p.version x).trans hx) (p.mem hv) hr']
  cases r with
  | ok l => rfl
  | error b =>
    show Exec.err _ = Exec.err _
    rw [p.version]

/-! ## Envelopes -/

/-- A payload of a version of the part. -/
theorem readPayload (hstep' : S'.StepContract) (hstep : S.StepContract) (hv : v ∈ S'.VERSIONS) :
    S.readPayload v c (p.context cx) = ReadOutput.map p.out <$> S'.readPayload v c cx := by
  unfold VersionSet.readPayload
  rw [p.parse hv]
  cases hp : S'.parse v c with
  | ok y =>
    simp only [Exec.map_ok, Exec.mapErr_ok, Exec.ok_bind, Prod.map_fst,
      p.upgrade hstep' hstep (p.parsed hv hp) hv, p.newest_eq]
    cases S'.upgrade y.1 v cx <;> rfl
  | err e => rfl
  | panics m => rfl
  | hang => rfl

/-- **An envelope is read as the whole reads it, or its version is not one of the part.** -/
theorem readJsonWith (hparse' : S'.ParseContract) (hstep' : S'.StepContract)
    (hparse : S.ParseContract) (hstep : S.StepContract) (bytes : Bytes) (cx : S'.Context) :
    S.readJsonWith bytes (p.context cx) = ReadOutput.map p.out <$> S'.readJsonWith bytes cx ∨
    ∃ v, Envelope.parse J bytes = .ok ⟨bytes, v⟩ ∧ v ∉ S'.VERSIONS ∧
      S'.readJsonWith bytes cx = .err (.unsupportedVersion ⟨v, S'.VERSIONS⟩) := by
  rcases parse_cases J bytes with ⟨e, he⟩ | ⟨version, data, v, henv, hv⟩
  · left
    rw [readJsonWith_of_parse_err _ he, readJsonWith_of_parse_err _ he]
    rfl
  · have hread' := readJsonWith_of_isEnvelope cx henv hv fun hmem _ _ =>
      hparse'.oneValue hmem henv.valueAt_data
    by_cases hmem : v ∈ S'.VERSIONS
    · left
      rw [readJsonWith_of_isEnvelope (p.context cx) henv hv fun hmem _ _ =>
        hparse.oneValue hmem henv.valueAt_data, hread', if_pos hmem, if_pos (p.mem hmem)]
      exact p.readPayload hstep' hstep hmem
    · exact .inr ⟨v, (Envelope.parse_of_isEnvelope henv).1 v hv, hmem, hread'.trans (if_neg hmem)⟩

/-! ## Bare payloads -/

/-- An attempt of a version of the part. -/
theorem attempt (hv : v ∈ S'.VERSIONS) :
    S.attempt bytes v = p.keep <$> S'.attempt bytes v :=
  J.fromSlice_map p.keep (p.parse hv _)

theorem version_of_attempt (hv : v ∈ S'.VERSIONS) (hx : S'.attempt bytes v = .ok x) :
    S'.version x = v := by
  obtain ⟨y, hy, hend⟩ := Exec.bind_eq_ok.1 hx
  obtain ⟨u, -, hpure⟩ := Exec.bind_eq_ok.1 hend
  cases hpure
  exact p.parsed hv hy

/-- What the part picks, the whole picks. -/
theorem picks (h : S'.Picks bytes v x) : S.Picks bytes v (p.keep x) where
  mem := p.mem h.mem
  accepts := by rw [p.attempt h.mem, h.accepts, Exec.map_ok]
  newer u hu hlt := by
    have hmem := p.mem_of_lt h.mem hu hlt
    obtain ⟨e, he⟩ := h.newer u hmem hlt
    exact ⟨e, by rw [p.attempt hmem, he, Exec.map_err]⟩

/-- **A bare payload is read as the whole reads it**, where the part picks a version. -/
theorem readUntaggedJsonWith (hstep' : S'.StepContract) (hstep : S.StepContract)
    (hpicks : S'.Picks bytes v x) :
    S.readUntaggedJsonWith bytes (p.context cx) =
      ReadOutput.map p.out <$> S'.readUntaggedJsonWith bytes cx := by
  unfold VersionSet.readUntaggedJsonWith
  cases validateJson J bytes with
  | ok u =>
    simp only [Exec.mapErr_ok, Exec.ok_bind]
    rw [tryVersions_of_picks _ (p.picks hpicks), tryVersions_of_picks _ hpicks,
      p.upgrade hstep' hstep (p.version_of_attempt hpicks.mem hpicks.accepts) hpicks.mem,
      p.newest_eq]
    cases S'.upgrade x v cx <;> rfl
  | _ => rfl

/-- The loop over versions of the part. -/
theorem tryVersions (hstep' : S'.StepContract) (hstep : S.StepContract) :
    ∀ {versions : List UInt32} {attempts : List (VersionAttempt J.Error)},
      (∀ v ∈ versions, v ∈ S'.VERSIONS) →
      S.tryVersions bytes (p.context cx) versions attempts =
        ReadOutput.map p.out <$> S'.tryVersions bytes cx versions attempts := by
  intro versions
  induction versions with
  | nil =>
    intro attempts _
    rfl
  | cons v versions ih =>
    intro attempts h
    obtain ⟨hv, hrest⟩ := List.forall_mem_cons.1 h
    unfold VersionSet.tryVersions
    rw [show J.fromSlice (S.parse v) bytes = p.keep <$> S'.attempt bytes v from p.attempt hv]
    cases hx : S'.attempt bytes v with
    | ok x =>
      simp only [Exec.map_ok, latestVersion_eq, p.newest_eq,
        p.upgrade hstep' hstep (p.version_of_attempt hv hx) hv, hx]
      cases S'.upgrade x v cx <;> rfl
    | err e =>
      simp only [Exec.map_err, hx]
      exact ih hrest
    | panics m => simp only [hx]; rfl
    | hang => simp only [hx]; rfl

/-! ## A part that has every version -/

section Whole

variable (hparse' : S'.ParseContract) (hstep' : S'.StepContract) (hparse : S.ParseContract)
  (hstep : S.StepContract) (hall : S.VERSIONS = S'.VERSIONS) (bytes : Bytes) (cx : S'.Context)
include hparse' hstep' hparse hstep hall

/-- **A part that has every version reads every envelope as the whole does.** -/
theorem readJsonWith_of_eq :
    S.readJsonWith bytes (p.context cx) = ReadOutput.map p.out <$> S'.readJsonWith bytes cx := by
  rcases p.readJsonWith hparse' hstep' hparse hstep bytes cx with heq | ⟨v, hp, hv, hread⟩
  · exact heq
  · rw [hread, readJsonWith_of_not_mem _ hp (hall ▸ hv), hall]
    rfl

omit hparse' hparse in
theorem readUntaggedJsonWith_of_eq :
    S.readUntaggedJsonWith bytes (p.context cx) =
      ReadOutput.map p.out <$> S'.readUntaggedJsonWith bytes cx := by
  unfold VersionSet.readUntaggedJsonWith
  cases validateJson J bytes with
  | ok u =>
    simp only [Exec.mapErr_ok, Exec.ok_bind, hall]
    exact p.tryVersions hstep' hstep fun v hv => List.mem_reverse.1 hv
  | _ => rfl

theorem readJsonOrElseWith_of_eq (fallback : NotAnEnvelopeReason → Exec DynError S'.Latest) :
    S.readJsonOrElseWith bytes (p.context cx) (fun reason => p.out <$> fallback reason) =
      ReadOutput.map p.out <$> S'.readJsonOrElseWith bytes cx fallback := by
  unfold VersionSet.readJsonOrElseWith
  rw [p.readJsonWith_of_eq hparse' hstep' hparse hstep hall]
  cases S'.readJsonWith bytes cx with
  | err e =>
    simp only [Exec.map_err, latestVersion_eq, p.newest_eq]
    cases notAnEnvelope e with
    | error e => rfl
    | ok reason =>
      simp only [Exec.lift_ok, Exec.mapErr_ok, Exec.ok_bind]
      cases fallback reason <;> rfl
  | _ => rfl

theorem readJsonOrUntaggedWith_of_eq :
    S.readJsonOrUntaggedWith bytes (p.context cx) =
      ReadOutput.map p.out <$> S'.readJsonOrUntaggedWith bytes cx := by
  unfold VersionSet.readJsonOrUntaggedWith
  rw [p.readJsonWith_of_eq hparse' hstep' hparse hstep hall,
    p.readUntaggedJsonWith_of_eq hstep' hstep hall]
  cases S'.readJsonWith bytes cx with
  | err e =>
    simp only [Exec.map_err]
    cases notAnEnvelope e with
    | error e => rfl
    | ok reason =>
      simp only [Exec.lift_ok, Exec.mapErr_ok, Exec.ok_bind]
      cases S'.readUntaggedJsonWith bytes cx <;> rfl
  | _ => rfl

end Whole

end Part

end VersionSet

end VersionedEnvelope
