import VersionedEnvelope.RoundTrip

/-!
# Shortcuts

A declaration may convert an old version straight to a newer one, past the versions between them.
Where it does at once what the declared steps do one after the other, nothing is read differently.

* `rekind` — the same variants, with other conversions.
* `Accepted.upgrade_skips` — where these skip over declared ones, the loop ends in the same way.
* `Accepted.readJson_skips`, `Accepted.readUntaggedJson_skips` — so do the readers, which do the
  same up to the loop.
* `Accepted.shortcut_reads` — every document is read as before, but that a conversion that fails is
  said to fail on the way from a version that may be older, to one that may be newer.
-/

set_option autoImplicit false

namespace VersionedEnvelope

open Json Ladder

/-! ## Results that agree -/

/-- A failure as the declared steps report it, and as a shortcut over them does. -/
structure ConversionFailed.Within (c c' : ConversionFailed) : Prop where
  original : c.original = c'.original
  source : c.source = c'.source
  fromVersion : c'.fromVersion ≤ c.fromVersion
  toVersion : c.toVersion ≤ c'.toVersion

/-- The same result, or conversions that failed for one reason; `failed` says how that is
    reported. -/
def Agrees {E T : Type} (failed : ConversionFailed → E) (r' r : Exec E T) : Prop :=
  r' = r ∨ ∃ c' c, r' = .err (failed c') ∧ r = .err (failed c) ∧ c.Within c'

namespace Agrees

variable {E F T U : Type} {failed : ConversionFailed → E} {r' r : Exec E T}

theorem bind (h : Agrees failed r' r) (f : T → Exec E U) : Agrees failed (r' >>= f) (r >>= f) := by
  rcases h with rfl | ⟨c', c, rfl, rfl, hwithin⟩
  · exact .inl rfl
  · exact .inr ⟨c', c, rfl, rfl, hwithin⟩

theorem mapErr (h : Agrees failed r' r) (f : E → F) :
    Agrees (fun c => f (failed c)) (r'.mapErr f) (r.mapErr f) := by
  rcases h with rfl | ⟨c', c, rfl, rfl, hwithin⟩
  · exact .inl rfl
  · exact .inr ⟨c', c, rfl, rfl, hwithin⟩

/-- What is done after the same start. -/
theorem after {p' p : Exec E T} {f' f : T → Exec E U} (hp : p' = p)
    (h : ∀ x, Agrees failed (f' x) (f x)) : Agrees failed (p' >>= f') (p >>= f) := by
  subst hp
  cases p' with
  | ok x => exact h x
  | err e => exact .inl rfl
  | panics m => exact .inl rfl
  | hang => exact .inl rfl

end Agrees

/-! ## The loop -/

namespace Declaration

variable {J : SerdeJson} {D : Declaration J}
  {kind' : ∀ var, Kind (fun var => (D.payload var).Carrier) D.Latest var}

/-- The same variants, with other conversions. -/
def rekind (D : Declaration J)
    (kind' : ∀ var, Kind (fun var => (D.payload var).Carrier) D.Latest var) : Declaration J :=
  { D with kind := kind' }

/-- Failures for one reason, on the way to a version and on the way to one past it. -/
def Alike (f' f : UInt32 × DynError) : Prop := f.2 = f'.2 ∧ f.1 ≤ f'.1

/-- Declared conversions lead to newer versions. -/
theorem Accepted.version_le_of_reaches (hD : D.Accepted) {x y : D.Value}
    (h : Reaches D.conversion x y) : D.version x ≤ D.version y := by
  induction h with
  | refl => exact le_rfl
  | @tail y z _ hnext ih =>
    have hstep : hD.versionSet.step y () = .next z :=
      VersionSet.rung_eq_next.1 ((congrFun (rung_eq hD.wellFormed) y).trans hnext)
    exact ih.trans (hD.stepContract.next (x := y) (D.version_mem y) hstep).2.le

/-- **The loop ends in the same way**, whatever it is asked to upgrade. -/
theorem Accepted.upgrade_skips (hD : D.Accepted) (hD' : (D.rekind kind').Accepted)
    (hskips : Skips (D.rekind kind').conversion D.conversion Alike) (x : D.Value) (v : UInt32) :
    Agrees id (hD'.versionSet.upgrade x v ()) (hD.versionSet.upgrade x v ()) := by
  by_cases hx : D.version x = v
  · have hmem : v ∈ D.VERSIONS := hx ▸ D.version_mem x
    obtain ⟨r', hr'⟩ := hD'.exists_climbs x
    obtain ⟨r, hr, hagree⟩ := hr'.skips hskips
    rw [← rung_eq hD'.wellFormed] at hr'
    rw [← rung_eq hD.wellFormed] at hr
    have hup' := hD'.stepContract.upgrade_eq_of_climbs hx hmem hr'
    have hup := hD.stepContract.upgrade_eq_of_climbs hx hmem hr
    rw [hup', hup]
    cases hagree with
    | top l => exact .inl rfl
    | @broken y z f' f hreaches halike =>
      exact .inr ⟨_, _, rfl, rfl, rfl, halike.1, hD.version_le_of_reaches hreaches, halike.2⟩
  · -- the assertion before the loop fails alike
    have hne : hD.versionSet.version x ≠ v := hx
    have hne' : hD'.versionSet.version x ≠ v := hx
    refine .inl ?_
    simp only [VersionSet.upgrade, VersionSet.latestVersion_eq, Exec.ok_bind, if_pos hne,
      if_pos hne']
    rfl

/-! ## The readers -/

/-- The payloads are parsed as before. -/
theorem versionSet_parse_rekind (h' : assertVersionSetWellFormed (D.rekind kind').VERSIONS = .ok ())
    (h : assertVersionSetWellFormed D.VERSIONS = .ok ()) (v : UInt32) :
    ((D.rekind kind').versionSet h').parse v = (D.versionSet h).parse v := by
  have hparseIn : ∀ vars : List D.Variant, (D.rekind kind').parseIn v vars = D.parseIn v vars := by
    intro vars
    induction vars with
    | nil => rfl
    | cons var vars ih =>
      funext de
      simp only [parseIn, ih]
      rfl
  exact hparseIn D.variants

theorem Accepted.readJson_skips (hD : D.Accepted) (hD' : (D.rekind kind').Accepted)
    (hskips : Skips (D.rekind kind').conversion D.conversion Alike) (bytes : Bytes) :
    Agrees .conversion (hD'.versionSet.readJson bytes) (hD.versionSet.readJson bytes) := by
  rcases VersionSet.parse_cases J bytes with ⟨e, he⟩ | ⟨version, data, v, henv, hversion⟩
  · have hread' : hD'.versionSet.readJson bytes = _ :=
      VersionSet.readJsonWith_of_parse_err (S := hD'.versionSet) () he
    have hread : hD.versionSet.readJson bytes = _ :=
      VersionSet.readJsonWith_of_parse_err (S := hD.versionSet) () he
    exact .inl (hread'.trans hread.symm)
  have hp := (Envelope.parse_of_isEnvelope henv).1 v hversion
  by_cases hv : v ∈ D.VERSIONS
  · have hread' : hD'.versionSet.readJson bytes = _ :=
      VersionSet.readJsonWith_of_mem (S := hD'.versionSet) () hp hv
    have hread : hD.versionSet.readJson bytes = _ :=
      VersionSet.readJsonWith_of_mem (S := hD.versionSet) () hp hv
    have hdata : Envelope.data J ⟨bytes, v⟩ (hD'.versionSet.parse v) =
        Envelope.data J ⟨bytes, v⟩ (hD.versionSet.parse v) :=
      congrArg _ (versionSet_parse_rekind hD'.wellFormed hD.wellFormed v)
    rw [hread', hread]
    exact Agrees.after (congrArg _ hdata) fun x =>
      ((hD.upgrade_skips hD' hskips x v).mapErr _).bind _
  · have hread' : hD'.versionSet.readJson bytes = _ :=
      VersionSet.readJsonWith_of_not_mem (S := hD'.versionSet) () hp hv
    have hread : hD.versionSet.readJson bytes = _ :=
      VersionSet.readJsonWith_of_not_mem (S := hD.versionSet) () hp hv
    exact .inl (hread'.trans hread.symm)

theorem Accepted.tryVersions_skips (hD : D.Accepted) (hD' : (D.rekind kind').Accepted)
    (hskips : Skips (D.rekind kind').conversion D.conversion Alike) (bytes : Bytes) :
    ∀ (versions : List UInt32) (attempts : List (VersionAttempt J.Error)),
      Agrees .conversion (hD'.versionSet.tryVersions bytes () versions attempts)
        (hD.versionSet.tryVersions bytes () versions attempts) := by
  intro versions
  induction versions with
  | nil =>
    intro attempts
    exact .inl rfl
  | cons v versions ih =>
    intro attempts
    have hfrom : J.fromSlice (hD'.versionSet.parse v) bytes =
        J.fromSlice (hD.versionSet.parse v) bytes :=
      congrArg (fun p => J.fromSlice p bytes)
        (versionSet_parse_rekind hD'.wellFormed hD.wellFormed v)
    cases hx : J.fromSlice (hD.versionSet.parse v) bytes with
    | ok x =>
      simp only [VersionSet.tryVersions, hx, hfrom.trans hx]
      exact ((hD.upgrade_skips hD' hskips x v).mapErr _).bind _
    | err e =>
      simp only [VersionSet.tryVersions, hx, hfrom.trans hx]
      exact ih _
    | panics m =>
      simp only [VersionSet.tryVersions, hx, hfrom.trans hx]
      exact .inl rfl
    | hang =>
      simp only [VersionSet.tryVersions, hx, hfrom.trans hx]
      exact .inl rfl

theorem Accepted.readUntaggedJson_skips (hD : D.Accepted) (hD' : (D.rekind kind').Accepted)
    (hskips : Skips (D.rekind kind').conversion D.conversion Alike) (bytes : Bytes) :
    Agrees .conversion (hD'.versionSet.readUntaggedJson bytes)
      (hD.versionSet.readUntaggedJson bytes) := by
  have htry := hD.tryVersions_skips hD' hskips bytes D.VERSIONS.reverse []
  cases hvalid : validateJson J bytes with
  | ok u =>
    have hread' : hD'.versionSet.readUntaggedJson bytes = _ :=
      VersionSet.readUntaggedJsonWith_of_valid (S := hD'.versionSet) () hvalid
    have hread : hD.versionSet.readUntaggedJson bytes = _ :=
      VersionSet.readUntaggedJsonWith_of_valid (S := hD.versionSet) () hvalid
    rw [hread', hread]
    exact htry
  | err e =>
    have hread' : hD'.versionSet.readUntaggedJson bytes = _ :=
      VersionSet.readUntaggedJsonWith_eq_json_iff.2 hvalid
    have hread : hD.versionSet.readUntaggedJson bytes = _ :=
      VersionSet.readUntaggedJsonWith_eq_json_iff.2 hvalid
    exact .inl (hread'.trans hread.symm)
  | panics m =>
    have hsettles := validateJson_settles J bytes
    rw [hvalid] at hsettles
    exact hsettles.elim
  | hang =>
    have hsettles := validateJson_settles J bytes
    rw [hvalid] at hsettles
    exact hsettles.elim

/-- Both take the fallback, or neither does. -/
theorem Accepted.notAnEnvelope_skips (hD : D.Accepted) (hD' : (D.rekind kind').Accepted)
    {bytes : Bytes} {reason : NotAnEnvelopeReason} :
    hD'.versionSet.readJson bytes = .err (.envelope (.notAnEnvelope reason)) ↔
      hD.versionSet.readJson bytes = .err (.envelope (.notAnEnvelope reason)) := by
  have hiff' : hD'.versionSet.readJson bytes = .err (.envelope (.notAnEnvelope reason)) ↔ _ :=
    VersionSet.readJsonWith_eq_envelope_iff
  have hiff : hD.versionSet.readJson bytes = .err (.envelope (.notAnEnvelope reason)) ↔ _ :=
    VersionSet.readJsonWith_eq_envelope_iff
  exact hiff'.trans hiff.symm

/-- **A shortcut reads what the declared steps read**, on every document: the same value of the
    same origin, or the same error, but for the versions that a failed conversion is said to be
    between.  Where it skips over the step that fails, these are further apart. -/
theorem Accepted.shortcut_reads (hD : D.Accepted) (hD' : (D.rekind kind').Accepted)
    (hskips : Skips (D.rekind kind').conversion D.conversion Alike) (bytes : Bytes) :
    Agrees .conversion (hD'.versionSet.readJson bytes) (hD.versionSet.readJson bytes) ∧
    Agrees .conversion (hD'.versionSet.readUntaggedJson bytes)
      (hD.versionSet.readUntaggedJson bytes) ∧
    (∀ fallback, Agrees (fun c => .read (.conversion c))
      (hD'.versionSet.readJsonOrElse bytes fallback)
      (hD.versionSet.readJsonOrElse bytes fallback)) ∧
    (Agrees (fun c => .read (.conversion c)) (hD'.versionSet.readJsonOrUntagged bytes)
        (hD.versionSet.readJsonOrUntagged bytes) ∨
      ∃ reason, Agrees (fun c => .untagged reason (.conversion c))
        (hD'.versionSet.readJsonOrUntagged bytes) (hD.versionSet.readJsonOrUntagged bytes)) := by
  have hread := hD.readJson_skips hD' hskips bytes
  have huntagged := hD.readUntaggedJson_skips hD' hskips bytes
  refine ⟨hread, huntagged, ?_⟩
  rcases hD'.versionSet.fallback_cases bytes () with ⟨reason, hnot', helse', hor'⟩ |
    ⟨hno', helse', hor'⟩
  · have hnot := (hD.notAnEnvelope_skips hD').1 hnot'
    rcases hD.versionSet.fallback_cases bytes () with ⟨reason', hnot₀, helse, hor⟩ | ⟨hno, -, -⟩
    · cases hnot.symm.trans hnot₀
      refine ⟨fun fallback => .inl ?_, .inr ⟨reason, ?_⟩⟩
      · exact (helse' fallback).trans (helse fallback).symm
      · rw [show hD'.versionSet.readJsonOrUntagged bytes = _ from hor',
          show hD.versionSet.readJsonOrUntagged bytes = _ from hor]
        exact huntagged.mapErr _
    · exact absurd hnot (hno reason)
  · rcases hD.versionSet.fallback_cases bytes () with ⟨reason, hnot, -, -⟩ | ⟨-, helse, hor⟩
    · exact absurd ((hD.notAnEnvelope_skips hD').2 hnot) (hno' reason)
    · refine ⟨fun fallback => ?_, .inl ?_⟩
      · rw [show hD'.versionSet.readJsonOrElse bytes fallback = _ from helse' fallback,
          show hD.versionSet.readJsonOrElse bytes fallback = _ from helse fallback]
        exact hread.mapErr _
      · rw [show hD'.versionSet.readJsonOrUntagged bytes = _ from hor',
          show hD.versionSet.readJsonOrUntagged bytes = _ from hor]
        exact hread.mapErr _

/-- Straight from the first version of `counters` to its last. -/
def straightKind : ∀ var, Kind (fun var => (counters.payload var).Carrier) counters.Latest var
  | .V1 => .tryNext .V4 fun n : UInt32 =>
    if n + 1 < 100 then .ok (n + 1 + 1) else .error (.mk "out of range" none)
  | .V3 => counters.kind .V3
  | .V4 => counters.kind .V4

theorem straight_accepted : (counters.rekind straightKind).Accepted where
  wellFormed := rfl
  checked var := by cases var <;> rfl

/-- A conversion that is left as it was. -/
theorem conversion_rekind {x : D.Value} (h : kind' x.1 = D.kind x.1) :
    (D.rekind kind').conversion x = D.conversion x := by
  have hkind : (D.rekind kind').kind x.1 = D.kind x.1 := h
  unfold conversion
  rw [hkind]
  cases D.kind x.1 with
  | next target into => rfl
  | tryNext target tryInto =>
    simp only
    cases tryInto x.2 <;> rfl
  | done into => rfl

/-- The first version is converted as the second one is, after the step between them. -/
theorem straight_skips :
    Skips (counters.rekind straightKind).conversion counters.conversion Alike := by
  refine skips_of_reaches (fun f => ⟨rfl, le_rfl⟩) fun x => ?_
  obtain ⟨var, n⟩ := x
  cases var with
  | V1 =>
    have hone : ∀ n : UInt32, counters.conversion ⟨.V1, n⟩ = .next ⟨.V3, n + 1⟩ := fun _ => rfl
    refine ⟨_, .single (hone n), ?_⟩
    have hstraight : ∀ n m : UInt32, n + 1 = m →
        (counters.rekind straightKind).conversion ⟨.V1, n⟩ = counters.conversion ⟨.V3, m⟩ := by
      rintro n m rfl
      unfold conversion
      simp only [rekind, straightKind, counters]
      by_cases hn : n + 1 < 100
      · rw [if_pos hn]
      · rw [if_neg hn]
        rfl
    exact hstraight n _ rfl
  | V3 => exact ⟨_, .refl, conversion_rekind rfl⟩
  | V4 => exact ⟨_, .refl, conversion_rekind rfl⟩

theorem Accepted.shortcut_reads_straight :
    straight_accepted.versionSet.readJson (ascii "\x7b\"version\":1,\"versioned_data\":7\x7d") =
      .ok ⟨(9 : UInt32), .envelope 1, 4⟩ := by
  have hread : counters_accepted.versionSet.readJson
      (ascii "\x7b\"version\":1,\"versioned_data\":7\x7d") = .ok ⟨(9 : UInt32), .envelope 1, 4⟩ :=
    rfl
  rcases (counters_accepted.shortcut_reads straight_accepted straight_skips
    (ascii "\x7b\"version\":1,\"versioned_data\":7\x7d")).1 with heq | ⟨_, _, -, herr, -⟩
  · exact heq.trans hread
  · cases hread.symm.trans herr

end Declaration

end VersionedEnvelope
