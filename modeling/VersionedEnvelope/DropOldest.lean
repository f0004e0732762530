import VersionedEnvelope.Part
import VersionedEnvelope.Unsupported

/-!
# Dropping the oldest version

A declared version set loses its first variant.  The variants that are left convert among
themselves, since a step goes to a newer variant.

* `Accepted.dropOldest` — the shorter declaration, and `Accepted.dropOldest_accepted`: it compiles.
* `Accepted.dropOldestPart` — it is the part of the longer one without the oldest version.
* `UnsupportedVersion.kind_tail` — where a version stands among the versions that are left.
* `dropOldest_preserves` — only documents of the oldest version are read differently.
-/

set_option autoImplicit false

namespace VersionedEnvelope

open Json Ladder

section Kind

variable {Variant : Type} {Carrier : Variant → Type} {Latest : Type}

/-- The variant that a step goes to. -/
def Kind.target? {var : Variant} : Kind Carrier Latest var → Option Variant
  | .next target _ => some target
  | .tryNext target _ => some target
  | .done _ => none

/-- The same step among the variants that are kept, where its target is one of them. -/
def Kind.restrict {kept : Variant → Prop} {var : {var // kept var}} :
    (kind : Kind Carrier Latest var.1) → (∀ target ∈ kind.target?, kept target) →
      Kind (fun var : {var // kept var} => Carrier var.1) Latest var
  | .next target into, h => .next ⟨target, h target rfl⟩ into
  | .tryNext target tryInto, h => .tryNext ⟨target, h target rfl⟩ tryInto
  | .done into, _ => .done into

/-- All a restricted step can be. -/
theorem Kind.restrict_cases {kept : Variant → Prop} {var : {var // kept var}}
    (kind : Kind Carrier Latest var.1) (h : ∀ target ∈ kind.target?, kept target) :
    (∃ target ht into, kind = .next target into ∧ kind.restrict h = .next ⟨target, ht⟩ into) ∨
    (∃ target ht tryInto, kind = .tryNext target tryInto ∧
      kind.restrict h = .tryNext ⟨target, ht⟩ tryInto) ∨
    (∃ into, kind = .done into ∧ kind.restrict h = .done into) := by
  cases kind with
  | next target into => exact .inl ⟨target, h target rfl, into, rfl, rfl⟩
  | tryNext target tryInto => exact .inr (.inl ⟨target, h target rfl, tryInto, rfl, rfl⟩)
  | done into => exact .inr (.inr ⟨into, rfl, rfl⟩)

end Kind

namespace Declaration

variable {J : SerdeJson} {D : Declaration J}

/-! ## The shorter declaration -/

/-- A step goes to a newer variant. -/
theorem Accepted.lt_of_target (hD : D.Accepted) {var target : D.Variant}
    (h : target ∈ (D.kind var).target?) : D.versionOf var < D.versionOf target := by
  have hcheck := (check_eq_ok hD.wellFormed).1 (hD.checked var)
  cases hk : D.kind var with
  | next target' into =>
    rw [hk] at h hcheck
    cases h
    exact hcheck
  | tryNext target' tryInto =>
    rw [hk] at h hcheck
    cases h
    exact hcheck
  | done into =>
    rw [hk] at h
    cases h

/-- **No step goes to the oldest variant.** -/
theorem Accepted.target_mem_tail (hD : D.Accepted) {var target : D.Variant}
    (h : target ∈ (D.kind var).target?) : target ∈ D.variants.tail := by
  have hlt := hD.lt_of_target h
  have hle := hD.versionSet.ascending.head_le (D.versionOf_mem var) hD.versionSet.versions_ne_nil
  have htarget := D.mem_variants target
  cases hvars : D.variants with
  | nil =>
    rw [hvars] at htarget
    cases htarget
  | cons oldest vars =>
    rw [hvars] at htarget
    rcases List.mem_cons.1 htarget with rfl | hmem
    · have hhead : hD.versionSet.VERSIONS.head hD.versionSet.versions_ne_nil =
          D.versionOf target := by
        apply Option.some.inj
        rw [← List.head?_eq_some_head]
        show D.VERSIONS.head? = _
        rw [VERSIONS, hvars]
        rfl
      rw [hhead] at hle
      exact absurd hlt (not_lt.2 hle)
    · exact hmem

/-- The declaration without its first variant. -/
def Accepted.dropOldest (hD : D.Accepted) : Declaration J where
  name := D.name
  Variant := {var // var ∈ D.variants.tail}
  variants := D.variants.tail.attach
  mem_variants var := List.mem_attach _ var
  stringify var := D.stringify var.1
  payload var := D.payload var.1
  Latest := D.Latest
  kind var := (D.kind var.1).restrict fun _ h => hD.target_mem_tail h

/-- A value of the shorter enum in the longer one. -/
def Accepted.keepNewer (hD : D.Accepted) (x : hD.dropOldest.Value) : D.Value := ⟨x.1.1, x.2⟩

theorem Accepted.VERSIONS_dropOldest (hD : D.Accepted) :
    hD.dropOldest.VERSIONS = D.VERSIONS.tail := by
  show D.variants.tail.attach.map (fun var => D.versionOf var.1) = (D.variants.map D.versionOf).tail
  rw [List.map_attach_eq_pmap]
  simp [List.pmap_eq_map, List.map_tail]

/-- The declared conversions are the ones of the longer declaration. -/
theorem Accepted.conversion_dropOldest (hD : D.Accepted) (x : hD.dropOldest.Value) :
    D.conversion (hD.keepNewer x) = (hD.dropOldest.conversion x).map hD.keepNewer id := by
  have hkind : hD.dropOldest.kind x.1 = (D.kind x.1.1).restrict _ := rfl
  unfold conversion
  rcases Kind.restrict_cases (D.kind x.1.1) fun _ h => hD.target_mem_tail h with
    ⟨target, ht, into, hk, hr⟩ | ⟨target, ht, tryInto, hk, hr⟩ | ⟨into, hk, hr⟩
  · rw [hkind, hr]
    simp only [keepNewer, hk]
    rfl
  · rw [hkind, hr]
    simp only [keepNewer, hk]
    cases tryInto x.2 <;> rfl
  · rw [hkind, hr]
    simp only [keepNewer, hk]
    rfl

theorem Accepted.newest_dropOldest (hD : D.Accepted)
    (h : assertVersionSetWellFormed hD.dropOldest.VERSIONS = .ok ()) :
    (hD.dropOldest.versionSet h).newest = hD.versionSet.newest := by
  have hsuffix : (hD.dropOldest.versionSet h).VERSIONS <:+ hD.versionSet.VERSIONS := by
    show hD.dropOldest.VERSIONS <:+ D.VERSIONS
    rw [hD.VERSIONS_dropOldest]
    exact D.VERSIONS.tail_suffix
  exact hsuffix.getLast (hD.dropOldest.versionSet h).versions_ne_nil

/-- **The shorter declaration compiles**, where a version is left. -/
theorem Accepted.dropOldest_accepted (hD : D.Accepted) (hleft : D.VERSIONS.tail ≠ []) :
    hD.dropOldest.Accepted := by
  have hasc : Ascending D.VERSIONS := hD.versionSet.ascending
  have hwell : assertVersionSetWellFormed hD.dropOldest.VERSIONS = .ok () := by
    rw [hD.VERSIONS_dropOldest]
    exact assertVersionSetWellFormed_iff.2 ⟨hleft, hasc.sublist D.VERSIONS.tail_sublist⟩
  refine ⟨hwell, fun var => (check_eq_ok hwell).2 ?_⟩
  have hkind : hD.dropOldest.kind var = (D.kind var.1).restrict _ := rfl
  have hcheck := (check_eq_ok hD.wellFormed).1 (hD.checked var.1)
  rcases Kind.restrict_cases (D.kind var.1) fun _ h => hD.target_mem_tail h with
    ⟨target, ht, into, hk, hr⟩ | ⟨target, ht, tryInto, hk, hr⟩ | ⟨into, hk, hr⟩
  · rw [hk] at hcheck
    rw [hkind, hr]
    exact hcheck
  · rw [hk] at hcheck
    rw [hkind, hr]
    exact hcheck
  · rw [hk] at hcheck
    rw [hkind, hr]
    exact hcheck.trans (hD.newest_dropOldest hwell).symm

/-- **The shorter declaration is the part of the longer one** without the oldest version. -/
def Accepted.dropOldestPart (hD : D.Accepted) (hD' : hD.dropOldest.Accepted) :
    hD'.versionSet.Part hD.versionSet where
  context := id
  keep := hD.keepNewer
  out := id
  versions := by
    show hD.dropOldest.VERSIONS <:+ D.VERSIONS
    rw [hD.VERSIONS_dropOldest]
    exact D.VERSIONS.tail_suffix
  version _ := rfl
  parse {v} hv c := by
    obtain ⟨var, -, rfl⟩ := List.mem_map.1 hv
    show D.parse (D.versionOf var.1) c = _ <$> hD.dropOldest.parse (hD.dropOldest.versionOf var) c
    rw [parse_versionOf hD.wellFormed, parse_versionOf hD'.wellFormed]
    show _ = _ <$> _ <$> (D.payload var.1).seed c
    cases (D.payload var.1).seed c <;> rfl
  parsed hv h := (parse_eq_ok hv h).1
  rung _ x := by
    have hlong : hD.versionSet.rung () (hD.keepNewer x) = D.conversion (hD.keepNewer x) :=
      congrFun (rung_eq hD.wellFormed) _
    have hshort : hD'.versionSet.rung () x = hD.dropOldest.conversion x :=
      congrFun (rung_eq hD'.wellFormed) x
    exact hlong.trans ((hD.conversion_dropOldest x).trans (congrArg (Rung.map _ id) hshort.symm))

end Declaration

/-! ## Where a version stands among those that are left -/

/-- **`kind` on the list without its oldest version.** -/
theorem UnsupportedVersion.kind_tail {found v₁ v₂ : UInt32} {rest : List UInt32}
    (hasc : Ascending (v₁ :: v₂ :: rest)) (hfound : found ∉ v₁ :: v₂ :: rest) :
    (⟨found, v₂ :: rest⟩ : UnsupportedVersion).kind =
      if (⟨found, v₁ :: v₂ :: rest⟩ : UnsupportedVersion).kind = .ok (.older v₁) ∨
          ((⟨found, v₁ :: v₂ :: rest⟩ : UnsupportedVersion).kind = .ok .gap ∧
            v₁ < found ∧ found < v₂)
      then .ok (.older v₂) else (⟨found, v₁ :: v₂ :: rest⟩ : UnsupportedVersion).kind := by
  obtain ⟨holdest, hasc'⟩ := List.pairwise_cons.1 hasc
  have hlt : v₁ < v₂ := holdest v₂ (List.mem_cons_self ..)
  simp only [List.mem_cons, not_or] at hfound
  by_cases hold : found < v₂
  · -- it was older than all, or stood in the gap that is gone
    have hle : v₂ ≤ (v₂ :: rest).getLast (List.cons_ne_nil _ _) :=
      Ascending.le_getLast hasc' (List.mem_cons_self ..) _
    have hnew : ¬ found > (v₂ :: rest).getLast (List.cons_ne_nil _ _) :=
      not_lt.2 (hold.le.trans hle)
    rw [kind_of_lt hasc' hold, kind_cons, List.getLast_cons (List.cons_ne_nil _ _), if_neg hnew]
    by_cases holder : found < v₁
    · simp [holder]
    · have hgap : v₁ < found := lt_of_le_of_ne (not_lt.1 holder) (Ne.symm hfound.1)
      simp [holder, hgap, hold]
  · have holder : ¬ found < v₁ := fun h => hold (h.trans hlt)
    rw [kind_cons, kind_cons, List.getLast_cons (List.cons_ne_nil _ _), if_neg hold, if_neg holder]
    by_cases hnew : found > (v₂ :: rest).getLast (List.cons_ne_nil _ _)
    · simp [hnew]
    · simp [hnew, hold]

namespace Declaration

variable {J : SerdeJson} {D : Declaration J}

/-! ## Reading through the shorter declaration -/

theorem Accepted.attempt_settles (hD : D.Accepted) {bytes : Bytes} {j : Json}
    (hdoc : J.document bytes = some j) :
    ∀ v ∈ hD.versionSet.VERSIONS, (hD.versionSet.attempt bytes v).Settles := fun _ hv =>
  VersionSet.fromSlice_settles (versionSet_parseContract hD.wellFormed) hdoc hv

section Read

variable (hD : D.Accepted) (hD' : hD.dropOldest.Accepted) {bytes : Bytes} {v : UInt32}
include hD hD'

/-- **An envelope of a version that is left is read as before**; one that is not supported any
    more, or never was, is reported so. -/
theorem readJson_dropOldest (bytes : Bytes) :
    hD'.versionSet.readJson bytes = hD.versionSet.readJson bytes ∨
    ∃ envelope, Envelope.parse J bytes = .ok envelope ∧ envelope.version ∉ D.VERSIONS.tail := by
  rcases (hD.dropOldestPart hD').readJsonWith (versionSet_parseContract hD'.wellFormed)
    hD'.stepContract (versionSet_parseContract hD.wellFormed) hD.stepContract bytes () with
    heq | ⟨v, hp, hv, -⟩
  · exact .inl (heq.trans (id_map _)).symm
  · refine .inr ⟨_, hp, ?_⟩
    rw [← hD.VERSIONS_dropOldest]
    exact hv

theorem mem_dropOldest : v ∈ hD'.versionSet.VERSIONS ↔ v ∈ D.VERSIONS.tail := by
  show v ∈ hD.dropOldest.VERSIONS ↔ _
  rw [hD.VERSIONS_dropOldest]

/-- An attempt of a version that is left. -/
theorem attempt_dropOldest (hv : v ∈ D.VERSIONS.tail) :
    hD.versionSet.attempt bytes v = hD.keepNewer <$> hD'.versionSet.attempt bytes v :=
  (hD.dropOldestPart hD').attempt ((mem_dropOldest hD hD').2 hv)

/-- **A bare payload that a version that is left is picked for is read as before.** -/
theorem readUntaggedJson_dropOldest {j : Json} (hdoc : J.document bytes = some j) :
    (∃ v ∈ D.VERSIONS.tail, VersionSet.UntaggedAt v (hD.versionSet.readUntaggedJson bytes) ∧
      hD'.versionSet.readUntaggedJson bytes = hD.versionSet.readUntaggedJson bytes) ∨
    hD'.versionSet.RefusedByAll bytes := by
  let p := hD.dropOldestPart hD'
  rcases VersionSet.picks_or_refused (hD'.attempt_settles hdoc) with ⟨v, x, hpicks⟩ | hall
  · have hx : hD.versionSet.version (p.keep x) = v :=
      (p.version x).trans (p.version_of_attempt hpicks.mem hpicks.accepts)
    have hread : hD.versionSet.readUntaggedJson bytes =
        ReadOutput.map p.out <$> hD'.versionSet.readUntaggedJson bytes :=
      p.readUntaggedJsonWith hD'.stepContract hD.stepContract hpicks
    exact .inl ⟨v, (mem_dropOldest hD hD').1 hpicks.mem,
      VersionSet.untaggedAt_of_picks hD.stepContract (validateJson_of_document hdoc)
        (p.picks hpicks) hx (),
      (hread.trans (id_map _)).symm⟩
  · exact .inr hall

/-- What is not listed any more is reported with the versions that are left. -/
theorem readJson_dropOldest_of_not_mem {envelope : Envelope}
    (hp : Envelope.parse J bytes = .ok envelope) (hv : envelope.version ∉ D.VERSIONS.tail) :
    hD'.versionSet.readJson bytes =
      .err (.unsupportedVersion ⟨envelope.version, D.VERSIONS.tail⟩) := by
  have hread := VersionSet.readJsonWith_of_not_mem (S := hD'.versionSet) () hp
    (mt (mem_dropOldest hD hD').1 hv)
  rw [← hD.VERSIONS_dropOldest]
  exact hread

theorem readUntaggedJson_dropOldest_of_untaggedAt
    (hat : VersionSet.UntaggedAt v (hD.versionSet.readUntaggedJson bytes))
    (hv : v ∈ D.VERSIONS → v ∈ D.VERSIONS.tail) :
    hD'.versionSet.readUntaggedJson bytes = hD.versionSet.readUntaggedJson bytes := by
  obtain ⟨j, hdoc⟩ := VersionSet.document_of_untaggedAt hat
  obtain ⟨x, hpicks⟩ := VersionSet.exists_picks_of_untaggedAt (validateJson_of_document hdoc)
    (hD.attempt_settles hdoc) hat
  rcases readUntaggedJson_dropOldest hD hD' hdoc with ⟨w, -, -, heq⟩ | hall
  · exact heq
  · -- the version that reads it is left, and accepts it as before
    have htail := hv hpicks.mem
    obtain ⟨e, he⟩ := hall v ((mem_dropOldest hD hD').2 htail)
    have haccepts := hpicks.accepts
    rw [attempt_dropOldest hD hD' htail, he] at haccepts
    cases haccepts

/-- **Where no version that is left reads the document, each of them is reported.** -/
theorem readUntaggedJson_dropOldest_refused {j : Json} (hdoc : J.document bytes = some j)
    (hnot : ∀ v ∈ D.VERSIONS.tail,
      ¬ VersionSet.UntaggedAt v (hD.versionSet.readUntaggedJson bytes)) :
    ∃ attempts : List (VersionAttempt J.Error),
      hD'.versionSet.readUntaggedJson bytes = .err (.noMatchingVersion ⟨attempts⟩) ∧
      attempts.map (·.version) = D.VERSIONS.tail.reverse ∧
      ∀ a ∈ attempts, hD.versionSet.attempt bytes a.version = .err a.error := by
  rcases readUntaggedJson_dropOldest hD hD' hdoc with ⟨w, hw, hat, -⟩ | hall
  · exact absurd hat (hnot w hw)
  · obtain ⟨attempts, hattempts, herrors, heq⟩ := VersionSet.tryVersions_of_refusedByAll () hall
    have hread : hD'.versionSet.readUntaggedJson bytes = _ :=
      VersionSet.readUntaggedJsonWith_of_valid (S := hD'.versionSet) ()
        (validateJson_of_document hdoc)
    have hversions : attempts.map (·.version) = D.VERSIONS.tail.reverse := by
      rw [hattempts, ← hD.VERSIONS_dropOldest]
      rfl
    refine ⟨attempts, hread.trans heq, hversions, fun a ha => ?_⟩
    have hin : a.version ∈ D.VERSIONS.tail := by
      rw [← List.mem_reverse, ← hversions]
      exact List.mem_map_of_mem ha
    rw [attempt_dropOldest hD hD' hin, herrors a ha]
    rfl

end Read

/-- **Dropping the oldest version** keeps the declaration compiling, and changes nothing but how
    documents of that version are read, and what is said of the versions that are not supported. -/
theorem dropOldest_preserves (hD : D.Accepted) {v₁ v₂ : UInt32} {rest : List UInt32}
    (hversions : D.VERSIONS = v₁ :: v₂ :: rest) :
    ∃ hD' : hD.dropOldest.Accepted, ∀ bytes,
      (∀ envelope, Envelope.parse J bytes = .ok envelope → envelope.version = v₁ →
        hD'.versionSet.readJson bytes = .err (.unsupportedVersion ⟨v₁, v₂ :: rest⟩) ∧
        UnsupportedVersion.kind ⟨v₁, v₂ :: rest⟩ = .ok (.older v₂)) ∧
      (∀ u, hD.versionSet.readJson bytes = .err (.unsupportedVersion u) →
        u.supported = v₁ :: v₂ :: rest ∧
        hD'.versionSet.readJson bytes = .err (.unsupportedVersion ⟨u.found, v₂ :: rest⟩) ∧
        UnsupportedVersion.kind ⟨u.found, v₂ :: rest⟩ =
          if u.kind = .ok (.older v₁) ∨ (u.kind = .ok .gap ∧ v₁ < u.found ∧ u.found < v₂)
          then .ok (.older v₂) else u.kind) ∧
      ((∀ envelope, Envelope.parse J bytes = .ok envelope → envelope.version ≠ v₁) →
        (∀ u, hD.versionSet.readJson bytes ≠ .err (.unsupportedVersion u)) →
        hD'.versionSet.readJson bytes = hD.versionSet.readJson bytes) ∧
      (∀ v, v ≠ v₁ → VersionSet.UntaggedAt v (hD.versionSet.readUntaggedJson bytes) →
        hD'.versionSet.readUntaggedJson bytes = hD.versionSet.readUntaggedJson bytes) ∧
      ((∀ v, v ≠ v₁ → ¬ VersionSet.UntaggedAt v (hD.versionSet.readUntaggedJson bytes)) →
        (∃ j, J.document bytes = some j) → ∃ attempts : List (VersionAttempt J.Error),
          hD'.versionSet.readUntaggedJson bytes = .err (.noMatchingVersion ⟨attempts⟩) ∧
          attempts.map (·.version) = (v₂ :: rest).reverse ∧
          ∀ a ∈ attempts, hD.versionSet.attempt bytes a.version = .err a.error) := by
  have htail : D.VERSIONS.tail = v₂ :: rest := by rw [hversions, List.tail_cons]
  have hD' := hD.dropOldest_accepted (by rw [htail]; exact List.cons_ne_nil _ _)
  have hasc : Ascending (v₁ :: v₂ :: rest) := hversions ▸ hD.versionSet.ascending
  obtain ⟨holdest, hasc'⟩ := List.pairwise_cons.1 hasc
  -- the versions that are left are the listed ones that are not the oldest
  have hmem : ∀ v, v ≠ v₁ → v ∈ D.VERSIONS → v ∈ D.VERSIONS.tail := fun v hv hin => by
    rw [hversions] at hin
    rw [htail]
    exact List.mem_of_ne_of_mem hv hin
  have hne : ∀ v ∈ D.VERSIONS.tail, v ≠ v₁ := fun v hv => (holdest v (htail ▸ hv)).ne'
  refine ⟨hD', fun bytes => ⟨fun envelope hp hv => ?_, fun u hu => ?_,
    fun hother hsupported => ?_, fun v hv hat => ?_, fun hnot ⟨j, hdoc⟩ => ?_⟩⟩
  · have hread := readJson_dropOldest_of_not_mem hD hD' hp fun h => hne _ h hv
    rw [hv, htail] at hread
    exact ⟨hread, UnsupportedVersion.kind_of_lt hasc' (holdest v₂ (List.mem_cons_self ..))⟩
  · obtain ⟨hsupported, hfound, envelope, hp, hv⟩ := VersionSet.readJsonWith_eq_unsupported hu
    have hsupported : u.supported = v₁ :: v₂ :: rest := hsupported.trans hversions
    have hfound : u.found ∉ D.VERSIONS := hfound
    have hread := readJson_dropOldest_of_not_mem hD hD' hp fun h =>
      hfound (hv ▸ List.mem_of_mem_tail h)
    obtain ⟨found, supported⟩ := u
    obtain rfl : supported = v₁ :: v₂ :: rest := hsupported
    rw [hv, htail] at hread
    exact ⟨rfl, hread, UnsupportedVersion.kind_tail hasc (hversions ▸ hfound)⟩
  · rcases readJson_dropOldest hD hD' bytes with heq | ⟨envelope, hp, hv⟩
    · exact heq
    · -- a version that neither of the two lists is not supported by the longer one either
      refine absurd (VersionSet.readJsonWith_of_not_mem (S := hD.versionSet) () hp fun hin => ?_)
        (hsupported _)
      exact hv (hmem _ (hother envelope hp) hin)
  · exact readUntaggedJson_dropOldest_of_untaggedAt hD hD' hat (hmem v hv)
  · obtain ⟨attempts, hread, hattempts, herrors⟩ :=
      readUntaggedJson_dropOldest_refused hD hD' hdoc fun v hv => hnot v (hne v hv)
    exact ⟨attempts, hread, hattempts.trans (by rw [htail]), herrors⟩

theorem dropOldest_preserves_counters :
    ∃ hD' : counters_accepted.dropOldest.Accepted,
      hD'.versionSet.readJson (ascii "\x7b\"version\":1,\"versioned_data\":7\x7d") =
        .err (.unsupportedVersion ⟨1, [3, 4]⟩) := by
  have hversions : counters.VERSIONS = [1, 3, 4] := rfl
  obtain ⟨hD', h⟩ := dropOldest_preserves counters_accepted hversions
  have hparse : Envelope.parse (SerdeJson.reference fun _ => true)
      (ascii "\x7b\"version\":1,\"versioned_data\":7\x7d") =
        .ok ⟨ascii "\x7b\"version\":1,\"versioned_data\":7\x7d", 1⟩ := rfl
  exact ⟨hD', ((h _).1 _ hparse rfl).1⟩

end Declaration

end VersionedEnvelope
