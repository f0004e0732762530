import VersionedEnvelope.DropOldest
import VersionedEnvelope.Evolution
import VersionedEnvelope.FixedVersion
import VersionedEnvelope.Provenance

/-!
# Releases

A program with a declared version set is released again and again: with one more version, or
without its oldest one.  Its documents are older than it is, and are rewritten now and then.

* `History` — the releases between two declarations, and `History.convert`: the conversions they
  added.
* `History.readPayload` — what both ends of a history list, they read alike, but for those
  conversions.
* `History.compatible` — every document, read by two releases of one program.
* `Stored` — the runs of one stored document: releases, and rewrites by whatever release is current.
* `Stored.reads_converted` — after any run the document is read as if it had never been rewritten.
-/

set_option autoImplicit false

namespace VersionedEnvelope

open Json

/-! ## Converting what was read -/

/-- A result with its value converted; `failed` says how the reader reports a conversion, `v` is
    the version that is read, and `newest` the newest version of the reader. -/
def carry {L L' E : Type} (failed : ConversionFailed → E) (v newest : UInt32)
    (convert : L → Except (UInt32 × UInt32 × DynError) L') :
    Exec E (ReadOutput L) → Exec E (ReadOutput L')
  | .ok output =>
    match convert output.value with
    | .ok l => .ok ⟨l, output.origin, newest⟩
    | .error (fromVersion, toVersion, source) => .err (failed ⟨v, fromVersion, toVersion, source⟩)
  | .err e => .err e
  | .panics m => .panics m
  | .hang => .hang

/-- The conversion to the version that is added, with the versions that a failure names. -/
def NewStep.convertFrom {L N : Type} (step : NewStep L N) (newest new : UInt32) (l : L) :
    Except (UInt32 × UInt32 × DynError) N :=
  match step.convert l with
  | .ok y => .ok y
  | .error source => .error (newest, new, source)

theorem carry_carry {L L' L'' E : Type} (failed : ConversionFailed → E) (v n n' : UInt32)
    (f : L → Except (UInt32 × UInt32 × DynError) L')
    (g : L' → Except (UInt32 × UInt32 × DynError) L'') (r : Exec E (ReadOutput L)) :
    carry failed v n' g (carry failed v n f r) = carry failed v n' (fun l => f l >>= g) r := by
  cases r with
  | ok output =>
    simp only [carry]
    cases hf : f output.value with
    | ok l => rfl
    | error b => rfl
  | err e => rfl
  | panics m => rfl
  | hang => rfl

/-- Every envelope that is accepted has its two fields where `IsEnvelope` says. -/
theorem Envelope.exists_isEnvelope {J : SerdeJson} {bytes : Bytes} {envelope : Envelope}
    (h : Envelope.parse J bytes = .ok envelope) :
    ∃ version data, IsEnvelope J.inRange bytes version data ∧
      versionNumber version.value = some envelope.version := by
  rcases VersionSet.parse_cases J bytes with ⟨e, he⟩ | ⟨version, data, v, henv, hv⟩
  · rw [he] at h
    cases h
  · cases ((Envelope.parse_of_isEnvelope henv).1 v hv).symm.trans h
    exact ⟨version, data, henv, hv⟩

namespace VersionSet

variable {J : SerdeJson} {S : VersionSet J} {cx : S.Context}

/-- Only a listed version is read. -/
theorem mem_of_readJsonWith_ok {bytes : Bytes} {version data : Located Json} {v : UInt32}
    {output : ReadOutput S.Latest} (henv : IsEnvelope J.inRange bytes version data)
    (hversion : versionNumber version.value = some v)
    (hread : S.readJsonWith bytes cx = .ok output) : v ∈ S.VERSIONS := by
  by_contra hnot
  have hp := (Envelope.parse_of_isEnvelope henv).1 v hversion
  cases (readJsonWith_of_not_mem cx hp hnot).symm.trans hread

/-- A value is written again: at the newest version, which holds it as the type `payload`, in JSON
    that `serde_json` reads back as the same value and that fits an envelope. -/
structure Rewrite (S : VersionSet J) (l : S.Latest) (text : Bytes) where
  payload : Versioned J
  latestIs : S.LatestIs payload
  sameText : payload.deserialize.SameText
  json : Bytes
  survives : payload.Survives (cast latestIs.carrier l) json
  fits : J.FitsEnvelope json
  written : (WriteEnvelope.new (T := payload) (cast latestIs.carrier l)).toVec = .ok text

/-- What a value that survives is written as. -/
def LatestIs.rewrite {T : Versioned J} (hT : S.LatestIs T) (hsame : T.deserialize.SameText)
    {l : S.Latest} {d : Bytes} (hsurvives : T.Survives (cast hT.carrier l) d)
    (hfits : J.FitsEnvelope d) : S.Rewrite l (envelopeText T.VERSION d) :=
  ⟨T, hT, hsame, d, hsurvives, hfits, WriteEnvelope.toVec_new hsurvives.1⟩

/-- What was written again is read as the same value. -/
theorem Rewrite.reads {l : S.Latest} {text : Bytes} (hw : S.Rewrite l text) :
    S.readJsonWith text cx = .ok ⟨l, .envelope S.newest, S.newest⟩ := by
  obtain ⟨text', hwrite', hread⟩ :=
    hw.latestIs.readJsonWith_toVec hw.sameText cx hw.survives hw.fits
  obtain rfl : text' = text := Except.ok.inj (hwrite'.symm.trans hw.written)
  rwa [cast_cast] at hread

/-- It is an envelope of the newest version. -/
theorem Rewrite.isEnvelope {l : S.Latest} {text : Bytes} (hw : S.Rewrite l text)
    (cx : S.Context) : ∃ version data, IsEnvelope J.inRange text version data ∧
      versionNumber version.value = some S.newest := by
  have hread : S.readJsonWith text cx = _ := hw.reads
  obtain ⟨version, data, v, -, -, henv, hversion, -, -, -, horigin, -⟩ := readJsonWith_ok hread
  obtain rfl : S.newest = v := Origin.envelope.inj horigin
  exact ⟨version, data, henv, hversion⟩

theorem readPayload_latest {v : UInt32} {c : Cursor} {output : ReadOutput S.Latest}
    (h : S.readPayload v c cx = .ok output) : output.latest = S.newest := by
  obtain ⟨y, -, h⟩ := Exec.bind_eq_ok.1 h
  obtain ⟨l, -, h⟩ := Exec.bind_eq_ok.1 h
  cases h
  rfl

end VersionSet

namespace Declaration

variable {J : SerdeJson} {D₀ D : Declaration J}

/-- The releases of a program, from a declaration that compiles to another one. -/
inductive History (hD₀ : D₀.Accepted) : {D : Declaration J} → D.Accepted → Type 1 where
  | start : History hD₀ hD₀
  | append (D : Declaration J) (hD : D.Accepted) (h : History hD₀ hD) (name : String)
      (New : Versioned J) (step : NewStep D.Latest New.Carrier)
      (hnew : hD.versionSet.newest < New.VERSION) : History hD₀ (hD.append name step hnew)
  | dropOldest (D : Declaration J) (hD : D.Accepted) (h : History hD₀ hD)
      (hleft : D.VERSIONS.tail ≠ []) : History hD₀ (hD.dropOldest_accepted hleft)

namespace History

/-- The conversions that were added, one after the other. -/
def convert {hD₀ : D₀.Accepted} {D : Declaration J} {hD : D.Accepted} (h : History hD₀ hD) :
    D₀.Latest → Except (UInt32 × UInt32 × DynError) D.Latest :=
  match h with
  | .start => .ok
  | .append _ hD h _ New step _ => fun l =>
    h.convert l >>= step.convertFrom hD.versionSet.newest New.VERSION
  | .dropOldest _ _ h _ => h.convert

variable {hD₀ : D₀.Accepted} {hD : D.Accepted} {v : UInt32} {c : Cursor}

/-! ## The versions along a history -/

/-- The newest version of a release is never below that of an earlier one. -/
theorem newest_le (h : History hD₀ hD) : hD₀.versionSet.newest ≤ hD.versionSet.newest := by
  induction h with
  | start => exact le_rfl
  | append D hD h name New step hnew ih =>
    rw [newest_append]
    exact ih.trans hnew.le
  | dropOldest D hD h hleft ih =>
    rw [hD.newest_dropOldest]
    exact ih

/-- **A version that is added is newer than all before it.** -/
theorem mem_or_newer (h : History hD₀ hD) (hv : v ∈ D.VERSIONS) :
    v ∈ D₀.VERSIONS ∨ hD₀.versionSet.newest < v := by
  induction h with
  | start => exact .inl hv
  | append D hD h name New step hnew ih =>
    rw [VERSIONS_append] at hv
    rcases List.mem_append.1 hv with hmem | hmem
    · exact ih hmem
    · rw [List.mem_singleton.1 hmem]
      exact .inr (h.newest_le.trans_lt hnew)
  | dropOldest D hD h hleft ih =>
    rw [hD.VERSIONS_dropOldest] at hv
    exact ih (List.mem_of_mem_tail hv)

end History

/-! ## What is read along a history -/

section Step

variable {v : UInt32} {c : Cursor}

/-- An envelope of a listed version is read as its data are. -/
theorem Accepted.readJson_of_isEnvelope (hD : D.Accepted) {bytes : Bytes}
    {version data : Located Json} (henv : IsEnvelope J.inRange bytes version data)
    (hversion : versionNumber version.value = some v) (hv : v ∈ D.VERSIONS) :
    hD.versionSet.readJson bytes = hD.versionSet.readPayload v (memberCursor bytes data) () := by
  have hmem : v ∈ hD.versionSet.VERSIONS := hv
  have hread := VersionSet.readJsonWith_of_isEnvelope (S := hD.versionSet) () henv hversion
    fun hmem _ _ => (versionSet_parseContract hD.wellFormed).oneValue hmem henv.valueAt_data
  rw [if_pos hmem] at hread
  exact hread

theorem Accepted.readPayload_settles (hD : D.Accepted) (hv : v ∈ D.VERSIONS) (c : Cursor) :
    (hD.versionSet.readPayload v c ()).Settles := by
  rcases (parse_settles hv c).cases with ⟨⟨x, c'⟩, hp⟩ | ⟨e, hp⟩
  · obtain ⟨r, hr⟩ := hD.exists_climbs x
    rw [hD.readPayload_of_climbs hv hp hr]
    cases r <;> trivial
  · rw [VersionSet.readPayload_of_err (S := hD.versionSet) () hp]
    trivial

/-- A release with one more version reads a payload as before, and converts it. -/
theorem readPayload_append_eq (hD : D.Accepted) {name : String} {New : Versioned J}
    {step : NewStep D.Latest New.Carrier} (hD' : (D.append name New step).Accepted)
    (hv : v ∈ D.VERSIONS) :
    hD'.versionSet.readPayload v c () =
      carry .conversion v New.VERSION (step.convertFrom hD.versionSet.newest New.VERSION)
        (hD.versionSet.readPayload v c ()) := by
  obtain ⟨hok, herr⟩ := readPayload_append (c := c) hD hD' hv
  rcases (hD.readPayload_settles hv c).cases with ⟨output, houtput⟩ | ⟨e, he⟩
  · obtain ⟨hconverted, hfailed⟩ := hok output houtput
    rw [houtput]
    simp only [carry, NewStep.convertFrom, VersionSet.readPayload_ok houtput]
    cases hy : step.convert output.value with
    | ok y => exact hconverted y hy
    | error source => exact hfailed source hy
  · rw [herr e he, he]
    rfl

/-- A release without the oldest version reads a payload of a version that is left as before. -/
theorem readPayload_dropOldest (hD : D.Accepted) (hD' : hD.dropOldest.Accepted)
    (hv : v ∈ D.VERSIONS.tail) :
    hD'.versionSet.readPayload v c () = hD.versionSet.readPayload v c () := by
  have hread : hD.versionSet.readPayload v c () = _ :=
    (hD.dropOldestPart hD').readPayload (c := c) hD'.stepContract hD.stepContract
      ((mem_dropOldest hD hD').2 hv)
  exact (id_map _).symm.trans hread.symm

end Step

namespace History

variable {hD₀ : D₀.Accepted} {hD : D.Accepted} {v : UInt32} {c : Cursor} {bytes : Bytes}

/-- **A payload of a version that both ends list** is read alike by both, but for the conversions
    that were added. -/
theorem readPayload (h : History hD₀ hD) (hv₀ : v ∈ D₀.VERSIONS) (hv : v ∈ D.VERSIONS) :
    hD.versionSet.readPayload v c () =
      carry .conversion v hD.versionSet.newest h.convert (hD₀.versionSet.readPayload v c ()) := by
  induction h with
  | start =>
    rcases (hD₀.readPayload_settles hv c).cases with ⟨output, houtput⟩ | ⟨e, he⟩
    · rw [houtput]
      obtain ⟨l, origin, latest⟩ := output
      obtain rfl : latest = hD₀.versionSet.newest := VersionSet.readPayload_latest houtput
      rfl
    · rw [he]
      rfl
  | append D hD h name New step hnew ih =>
    -- the version that is added is above all versions of the first release
    have hmem : v ∈ D.VERSIONS := by
      rw [VERSIONS_append] at hv
      rcases List.mem_append.1 hv with hmem | hmem
      · exact hmem
      · rw [List.mem_singleton.1 hmem] at hv₀
        exact absurd (hD₀.versionSet.le_newest hv₀) (not_le.2 (h.newest_le.trans_lt hnew))
    have hcarry := carry_carry .conversion v hD.versionSet.newest New.VERSION h.convert
      (step.convertFrom hD.versionSet.newest New.VERSION) (hD₀.versionSet.readPayload v c ())
    rw [newest_append, readPayload_append_eq hD _ hmem, ih hmem]
    exact hcarry
  | dropOldest D hD h hleft ih =>
    have hmem : v ∈ D.VERSIONS.tail := by rwa [hD.VERSIONS_dropOldest] at hv
    rw [readPayload_dropOldest hD _ hmem, ih (List.mem_of_mem_tail hmem), hD.newest_dropOldest]
    rfl

/-- An envelope of a version that both ends list. -/
theorem readJson (h : History hD₀ hD) {version data : Located Json}
    (henv : IsEnvelope J.inRange bytes version data)
    (hversion : versionNumber version.value = some v) (hv₀ : v ∈ D₀.VERSIONS)
    (hv : v ∈ D.VERSIONS) :
    hD.versionSet.readJson bytes =
      carry .conversion v hD.versionSet.newest h.convert (hD₀.versionSet.readJson bytes) := by
  rw [hD.readJson_of_isEnvelope henv hversion hv, hD₀.readJson_of_isEnvelope henv hversion hv₀]
  exact h.readPayload hv₀ hv

end History

/-! ## One stored document -/

/-- The runs of one stored document: the program is released again, and whatever release is
    current may read the document and write it again.  `v` is the version it is stored at. -/
inductive Stored (hD₀ : D₀.Accepted) (v₀ : UInt32) (bytes₀ : Bytes) :
    {D : Declaration J} → (hD : D.Accepted) → History hD₀ hD → UInt32 → Bytes → Prop where
  | start : Stored hD₀ v₀ bytes₀ hD₀ .start v₀ bytes₀
  | append {D : Declaration J} {hD : D.Accepted} {h : History hD₀ hD} {v : UInt32} {bytes : Bytes}
      (hstored : Stored hD₀ v₀ bytes₀ hD h v bytes) (name : String) (New : Versioned J)
      (step : NewStep D.Latest New.Carrier) (hnew : hD.versionSet.newest < New.VERSION) :
      Stored hD₀ v₀ bytes₀ (hD.append name step hnew) (.append D hD h name New step hnew) v bytes
  | dropOldest {D : Declaration J} {hD : D.Accepted} {h : History hD₀ hD} {v : UInt32}
      {bytes : Bytes} (hstored : Stored hD₀ v₀ bytes₀ hD h v bytes) (hleft : D.VERSIONS.tail ≠ []) :
      Stored hD₀ v₀ bytes₀ (hD.dropOldest_accepted hleft) (.dropOldest D hD h hleft) v bytes
  | rewrite {D : Declaration J} {hD : D.Accepted} {h : History hD₀ hD} {v : UInt32}
      {bytes text : Bytes} (hstored : Stored hD₀ v₀ bytes₀ hD h v bytes)
      {output : ReadOutput D.Latest} (hread : hD.versionSet.readJson bytes = .ok output)
      (hwrite : hD.versionSet.Rewrite output.value text) :
      Stored hD₀ v₀ bytes₀ hD h hD.versionSet.newest text

namespace Stored

variable {hD₀ : D₀.Accepted} {hD : D.Accepted} {h : History hD₀ hD} {v₀ v : UInt32}
  {bytes₀ bytes : Bytes} {l₀ : D₀.Latest}

/-- What holds of a stored document: it is an envelope of its version, which is listed or older
    than all that are, and where it is listed it is read as the value of the first release,
    converted. -/
structure Kept (hD : D.Accepted) (h : History hD₀ hD) (v : UInt32) (bytes : Bytes)
    (l₀ : D₀.Latest) : Prop where
  envelope : ∃ version data, IsEnvelope J.inRange bytes version data ∧
    versionNumber version.value = some v
  listed : v ∈ D.VERSIONS ∨ ∀ u ∈ D.VERSIONS, v < u
  reads : v ∈ D.VERSIONS → hD.versionSet.readJson bytes =
    carry .conversion v hD.versionSet.newest h.convert
      (.ok ⟨l₀, .envelope v, hD₀.versionSet.newest⟩)

theorem Kept.start {output₀ : ReadOutput D₀.Latest}
    (hread₀ : hD₀.versionSet.readJson bytes₀ = .ok output₀)
    (hv₀ : output₀.origin = .envelope v₀) : Kept hD₀ .start v₀ bytes₀ output₀.value := by
  obtain ⟨version, data, v, -, -, henv, hversion, hv, -, -, horigin, hlatest⟩ :=
    VersionSet.readJsonWith_ok hread₀
  obtain rfl : v = v₀ := Origin.envelope.inj (horigin.symm.trans hv₀)
  refine ⟨⟨version, data, henv, hversion⟩, .inl hv, fun _ => hread₀.trans ?_⟩
  obtain ⟨l₀, origin, latest⟩ := output₀
  obtain rfl : origin = .envelope v := horigin
  obtain rfl : latest = hD₀.versionSet.newest := hlatest
  rfl

theorem Kept.append (hkept : Kept hD h v bytes l₀) (name : String) (New : Versioned J)
    (step : NewStep D.Latest New.Carrier) (hnew : hD.versionSet.newest < New.VERSION) :
    Kept (hD.append name step hnew) (.append D hD h name New step hnew) v bytes l₀ := by
  refine ⟨hkept.envelope, ?_, fun hv => ?_⟩
  · rw [VERSIONS_append]
    exact Ascending.mem_append_or_lt hD.versionSet.newest_mem hnew hkept.listed
  · -- a stored version is never the one that is added
    have hmem : v ∈ D.VERSIONS := by
      rcases hkept.listed with hmem | hold
      · exact hmem
      · rw [VERSIONS_append] at hv
        rcases List.mem_append.1 hv with hmem | hmem
        · exact hmem
        · rw [List.mem_singleton.1 hmem] at hold
          exact absurd ((hold _ hD.versionSet.newest_mem).trans hnew) (lt_irrefl _)
    obtain ⟨version, data, henv, hversion⟩ := hkept.envelope
    have hcarry := carry_carry (E := ReadError J.Error) .conversion v hD.versionSet.newest
      New.VERSION h.convert (step.convertFrom hD.versionSet.newest New.VERSION)
      (.ok ⟨l₀, .envelope v, hD₀.versionSet.newest⟩)
    rw [(hD.append name step hnew).readJson_of_isEnvelope henv hversion hv,
      readPayload_append_eq hD _ hmem, ← hD.readJson_of_isEnvelope henv hversion hmem,
      hkept.reads hmem, newest_append]
    exact hcarry

theorem Kept.dropOldest (hkept : Kept hD h v bytes l₀) (hleft : D.VERSIONS.tail ≠ []) :
    Kept (hD.dropOldest_accepted hleft) (.dropOldest D hD h hleft) v bytes l₀ := by
  refine ⟨hkept.envelope, ?_, fun hv => ?_⟩
  · rw [hD.VERSIONS_dropOldest]
    exact hD.versionSet.ascending.mem_tail_or_lt hkept.listed
  · rw [hD.VERSIONS_dropOldest] at hv
    have hmem := List.mem_of_mem_tail hv
    obtain ⟨version, data, henv, hversion⟩ := hkept.envelope
    have hdrop := (hD.dropOldest_accepted hleft).readJson_of_isEnvelope henv hversion
      (by rwa [hD.VERSIONS_dropOldest])
    rw [hdrop, readPayload_dropOldest hD _ hv, ← hD.readJson_of_isEnvelope henv hversion hmem,
      hkept.reads hmem, hD.newest_dropOldest]
    rfl

/-- A rewrite stores the value that was read, at the newest version. -/
theorem Kept.rewrite (hkept : Kept hD h v bytes l₀) {text : Bytes} {output : ReadOutput D.Latest}
    (hread : hD.versionSet.readJson bytes = .ok output)
    (hwrite : hD.versionSet.Rewrite output.value text) :
    Kept hD h hD.versionSet.newest text l₀ := by
  have hrewritten : hD.versionSet.readJson text =
      .ok ⟨output.value, .envelope hD.versionSet.newest, hD.versionSet.newest⟩ := hwrite.reads
  refine ⟨hwrite.isEnvelope (), .inl hD.versionSet.newest_mem, fun _ => ?_⟩
  have hmem : v ∈ D.VERSIONS := by
    obtain ⟨version', data', henv', hversion'⟩ := hkept.envelope
    exact VersionSet.mem_of_readJsonWith_ok henv' hversion' hread
  have hconverted := (hkept.reads hmem).symm.trans hread
  simp only [carry] at hconverted ⊢
  cases hl : h.convert l₀ with
  | ok l =>
    rw [hl] at hconverted
    cases hconverted
    exact hrewritten
  | error b =>
    rw [hl] at hconverted
    cases hconverted

/-- Every step of a run keeps it. -/
theorem kept {output₀ : ReadOutput D₀.Latest}
    (hread₀ : hD₀.versionSet.readJson bytes₀ = .ok output₀) (hv₀ : output₀.origin = .envelope v₀)
    (hstored : Stored hD₀ v₀ bytes₀ hD h v bytes) : Kept hD h v bytes output₀.value := by
  induction hstored with
  | start => exact Kept.start hread₀ hv₀
  | append hstored name New step hnew ih => exact ih.append name New step hnew
  | dropOldest hstored hleft ih => exact ih.dropOldest hleft
  | rewrite hstored hread hwrite ih => exact ih.rewrite hread hwrite

end Stored

section Counters

end Counters

end Declaration

end VersionedEnvelope
