import VersionedEnvelope.RoundTrip

/-!
# Adding a version

A declared version set gets one more variant: the newest one, which had no step, is converted to
it.

* `append` — the longer declaration.
* `Accepted.append` — it compiles when the new version is the newest.
* `climbs_append`, `climbs_append_top` — it has the old conversions, and one more on top.
* `append_preserves` — what was read before is read as before, but for that conversion.
-/

set_option autoImplicit false

namespace VersionedEnvelope

open Json Ladder

/-- The step to the variant that is added: `=> New` or `=> try New`. -/
inductive NewStep (Latest New : Type) where
  | next (into : Latest → New)
  | tryNext (tryInto : Latest → Except DynError New)

def NewStep.convert {Latest New : Type} : NewStep Latest New → Latest → Except DynError New
  | .next into, l => .ok (into l)
  | .tryNext tryInto, l => tryInto l

namespace Declaration

variable {J : SerdeJson}

/-- The declaration with the variant `New` appended, `Latest` its payload type, and the missing
    step replaced by `step`.  What was done by `into` is now converted: where `Latest` was the
    payload type itself, `into` is the identity. -/
def append (D : Declaration J) (name : String) (New : Versioned J)
    (step : NewStep D.Latest New.Carrier) : Declaration J where
  name := D.name
  Variant := Option D.Variant
  variants := D.variants.map some ++ [none]
  mem_variants
    | none => by simp
    | some var => by simp [D.mem_variants var]
  stringify
    | none => name
    | some var => D.stringify var
  payload
    | none => New
    | some var => D.payload var
  Latest := New.Carrier
  kind
    | none => .done id
    | some var =>
      match D.kind var with
      | .next target into => .next (some target) into
      | .tryNext target tryInto => .tryNext (some target) tryInto
      | .done into =>
        match step with
        | .next f => .next none fun payload => f (into payload)
        | .tryNext f => .tryNext none fun payload => f (into payload)

variable {D : Declaration J} {name : String} {New : Versioned J}
  {step : NewStep D.Latest New.Carrier}

/-- A value of the old enum in the new one. -/
def keep (step : NewStep D.Latest New.Carrier) (x : D.Value) : (D.append name New step).Value :=
  ⟨some x.1, x.2⟩

theorem VERSIONS_append : (D.append name New step).VERSIONS = D.VERSIONS ++ [New.VERSION] := by
  simp [VERSIONS, append, versionOf, Function.comp_def]

section Kind

variable {var target : D.Variant} {into : (D.payload var).Carrier → D.Latest}

theorem kind_append_next {into : (D.payload var).Carrier → (D.payload target).Carrier}
    (h : D.kind var = .next target into) :
    (D.append name New step).kind (some var) = .next (some target) into := by
  simp only [append, h]

theorem kind_append_tryNext
    {tryInto : (D.payload var).Carrier → Except DynError (D.payload target).Carrier}
    (h : D.kind var = .tryNext target tryInto) :
    (D.append name New step).kind (some var) = .tryNext (some target) tryInto := by
  simp only [append, h]

theorem kind_append_done_next {f : D.Latest → New.Carrier} (h : D.kind var = .done into) :
    (D.append name New (.next f)).kind (some var) = .next none fun payload => f (into payload) := by
  simp only [append, h]

theorem kind_append_done_tryNext {f : D.Latest → Except DynError New.Carrier}
    (h : D.kind var = .done into) :
    (D.append name New (.tryNext f)).kind (some var) =
      .tryNext none fun payload => f (into payload) := by
  simp only [append, h]

end Kind

/-! ## The longer declaration compiles -/

theorem wellFormed_append (hD : D.Accepted) (hnew : hD.versionSet.newest < New.VERSION) :
    assertVersionSetWellFormed (D.append name New step).VERSIONS = .ok () := by
  rw [VERSIONS_append]
  have hasc : Ascending D.VERSIONS := hD.versionSet.ascending
  refine assertVersionSetWellFormed_iff.2 ⟨by simp, hasc.append_singleton fun v hv => ?_⟩
  exact (hD.versionSet.le_newest hv).trans_lt hnew

theorem newest_append (h : assertVersionSetWellFormed (D.append name New step).VERSIONS = .ok ()) :
    ((D.append name New step).versionSet h).newest = New.VERSION := by
  have hlast : (D.append name New step).variants.getLast? = some none := by simp [append]
  exact ((newest_eq_iff h).2 hlast).symm

/-- **The longer declaration compiles** when the version it adds is newer than all others. -/
theorem Accepted.append (hD : D.Accepted) (name : String) (step : NewStep D.Latest New.Carrier)
    (hnew : hD.versionSet.newest < New.VERSION) : (D.append name New step).Accepted where
  wellFormed := wellFormed_append hD hnew
  checked
    | none => by
      refine (check_eq_ok (wellFormed_append hD hnew)).2 ?_
      exact (newest_append _).symm
    | some var => by
      have hcheck := (check_eq_ok hD.wellFormed).1 (hD.checked var)
      refine (check_eq_ok (wellFormed_append hD hnew)).2 ?_
      cases hk : D.kind var with
      | next target into =>
        rw [hk] at hcheck
        rw [kind_append_next hk]
        exact hcheck
      | tryNext target tryInto =>
        rw [hk] at hcheck
        rw [kind_append_tryNext hk]
        exact hcheck
      | done into =>
        rw [hk] at hcheck
        have hlt : D.versionOf var < New.VERSION := hcheck.trans_lt hnew
        cases step with
        | next f => rw [kind_append_done_next hk]; exact hlt
        | tryNext f => rw [kind_append_done_tryNext hk]; exact hlt

/-! ## The longer ladder -/

theorem conversion_append_next {x y : D.Value} (h : D.conversion x = .next y) :
    (D.append name New step).conversion (keep step x) = .next (keep step y) := by
  unfold conversion at h ⊢
  cases hk : D.kind x.1 with
  | next target into =>
    simp only [hk] at h
    cases h
    simp only [keep, kind_append_next hk]
  | tryNext target tryInto =>
    simp only [hk] at h
    cases hx : tryInto x.2 with
    | ok z =>
      simp only [hx] at h
      cases h
      simp only [keep, kind_append_tryNext hk, hx]
    | error source => simp only [hx, reduceCtorEq] at h
  | done into => simp only [hk, reduceCtorEq] at h

theorem conversion_append_broken {x : D.Value} {f : UInt32 × DynError}
    (h : D.conversion x = .broken f) :
    (D.append name New step).conversion (keep step x) = .broken f := by
  unfold conversion at h ⊢
  cases hk : D.kind x.1 with
  | next target into => simp only [hk, reduceCtorEq] at h
  | tryNext target tryInto =>
    simp only [hk] at h
    cases hx : tryInto x.2 with
    | ok z => simp only [hx, reduceCtorEq] at h
    | error source =>
      simp only [hx] at h
      cases h
      simp only [keep, kind_append_tryNext hk, hx]
      rfl
  | done into => simp only [hk, reduceCtorEq] at h

theorem conversion_eq_top {x : D.Value} {l : D.Latest} (h : D.conversion x = .top l) :
    ∃ into, D.kind x.1 = .done into ∧ into x.2 = l := by
  unfold conversion at h
  cases hk : D.kind x.1 with
  | next target into => simp only [hk, reduceCtorEq] at h
  | tryNext target tryInto =>
    simp only [hk] at h
    cases hx : tryInto x.2 <;> simp only [hx, reduceCtorEq] at h
  | done into =>
    simp only [hk] at h
    cases h
    exact ⟨into, rfl, rfl⟩

/-- The ladder ends at the newest version. -/
theorem Accepted.version_of_top (hD : D.Accepted) {x : D.Value} {l : D.Latest}
    (h : D.conversion x = .top l) : D.version x = hD.versionSet.newest := by
  obtain ⟨into, hk, -⟩ := conversion_eq_top h
  have hcheck := (check_eq_ok hD.wellFormed).1 (hD.checked x.1)
  rw [hk] at hcheck
  exact hcheck

/-- Where the old ladder ended, the new one has one more conversion. -/
theorem climbs_append_top (name : String) (step : NewStep D.Latest New.Carrier) {x : D.Value}
    {l : D.Latest} (h : D.conversion x = .top l) :
    (∀ y, step.convert l = .ok y →
      Climbs (D.append name New step).conversion (keep step x) (.ok y)) ∧
    (∀ source, step.convert l = .error source →
      Climbs (D.append name New step).conversion (keep step x)
        (.error (keep step x, New.VERSION, source))) := by
  obtain ⟨into, hk, rfl⟩ := conversion_eq_top h
  let last (y : New.Carrier) : (D.append name New step).Value := ⟨none, y⟩
  have hlast : ∀ y, Climbs (D.append name New step).conversion (last y) (.ok y) := fun y => .top rfl
  cases step with
  | next f =>
    refine ⟨fun y hy => .next (b := last y) ?_ (hlast y), fun source hsource => by cases hsource⟩
    cases hy
    simp only [conversion, keep, kind_append_done_next hk, last]
  | tryNext f =>
    refine ⟨fun y hy => .next (b := last y) ?_ (hlast y), fun source hsource => .broken ?_⟩
    · have hy : f (into x.2) = .ok y := hy
      simp only [conversion, keep, kind_append_done_tryNext hk, hy, last]
    · have hsource : f (into x.2) = .error source := hsource
      simp only [conversion, keep, kind_append_done_tryNext hk, hsource]
      rfl

/-- **A climb of the old ladder goes on in the same way on the new one.** -/
theorem climbs_append (name : String) (step : NewStep D.Latest New.Carrier) {x : D.Value}
    {r : Except (D.Value × UInt32 × DynError) D.Latest} (h : Climbs D.conversion x r) :
    match r with
    | .ok l => ∃ y, D.conversion y = .top l ∧ ∀ r',
        Climbs (D.append name New step).conversion (keep step y) r' →
        Climbs (D.append name New step).conversion (keep step x) r'
    | .error (y, f) =>
        Climbs (D.append name New step).conversion (keep step x) (.error (keep step y, f)) := by
  have hreaches : ∀ {y}, Reaches D.conversion x y →
      Reaches (D.append name New step).conversion (keep step x) (keep step y) :=
    Reaches.map fun _ _ => conversion_append_next
  cases r with
  | ok l =>
    obtain ⟨y, hy, htop⟩ := climbs_ok_iff.1 h
    exact ⟨y, htop, fun r' => (climbs_iff_of_reaches (hreaches hy)).2⟩
  | error b =>
    obtain ⟨y, f⟩ := b
    obtain ⟨hy, hbroken⟩ := climbs_error_iff.1 h
    exact climbs_error_iff.2 ⟨hreaches hy, conversion_append_broken hbroken⟩

/-! ## Reading through the longer declaration -/

theorem mem_VERSIONS_append {v : UInt32} (hv : v ∈ D.VERSIONS) :
    v ∈ (D.append name New step).VERSIONS := by
  rw [VERSIONS_append]
  exact List.mem_append_left _ hv

section Read

variable (hD : D.Accepted) (hD' : (D.append name New step).Accepted) {v : UInt32} {c : Cursor}
include hD hD'

/-- A listed version is parsed as before. -/
theorem parse_append (hv : v ∈ D.VERSIONS) : (D.append name New step).parse v c =
    (fun (x, c') => (keep step x, c')) <$> D.parse v c := by
  obtain ⟨var, -, rfl⟩ := List.mem_map.1 hv
  have hold := parse_versionOf hD.wellFormed var c
  have hnew : (D.append name New step).parse (D.versionOf var) c = _ :=
    parse_versionOf hD'.wellFormed (some var) c
  rw [hold, hnew]
  change _ <$> (D.payload var).seed c = _
  cases (D.payload var).seed c <;> rfl

/-- **A payload of a listed version is read as before**, but for the new conversion. -/
theorem readPayload_append (hv : v ∈ D.VERSIONS) :
    (∀ output, hD.versionSet.readPayload v c () = .ok output →
      (∀ y, step.convert output.value = .ok y →
        hD'.versionSet.readPayload v c () = .ok ⟨y, .envelope v, New.VERSION⟩) ∧
      (∀ source, step.convert output.value = .error source →
        hD'.versionSet.readPayload v c () =
          .err (.conversion ⟨v, hD.versionSet.newest, New.VERSION, source⟩))) ∧
    (∀ e, hD.versionSet.readPayload v c () = .err e →
      hD'.versionSet.readPayload v c () = .err e) := by
  have hparse := parse_append (c := c) hD hD' hv
  have hv' : v ∈ (D.append name New step).VERSIONS := mem_VERSIONS_append hv
  have hnewest := newest_append hD'.wellFormed
  rcases (parse_settles hv c).cases with ⟨⟨x, c'⟩, hp⟩ | ⟨e, hp⟩
  · rw [hp] at hparse
    obtain ⟨r, hr⟩ := hD.exists_climbs x
    have hclimbs := climbs_append name step hr
    have hread := hD.readPayload_of_climbs hv hp hr
    have hread' : ∀ {r'}, Climbs (D.append name New step).conversion (keep step x) r' →
        hD'.versionSet.readPayload v c () = hD'.versionSet.outcome v r' :=
      hD'.readPayload_of_climbs hv' hparse
    rw [hread]
    cases r with
    | error b =>
      obtain ⟨y, f⟩ := b
      refine ⟨fun output h => (by cases h), fun e h => ?_⟩
      cases h
      exact hread' hclimbs
    | ok l =>
      refine ⟨fun output h => ?_, fun e h => (by cases h)⟩
      cases h
      obtain ⟨y, htop, hclimbs⟩ := hclimbs
      obtain ⟨hok, herror⟩ := climbs_append_top name step htop
      refine ⟨fun z hz => ?_, fun source hsource => ?_⟩
      · have hlast := (hread' (hclimbs _ (hok z hz))).trans (hD'.versionSet.outcome_ok v z)
        rwa [hnewest] at hlast
      · have hlast := (hread' (hclimbs _ (herror source hsource))).trans
          (hD'.versionSet.outcome_error v New.VERSION (keep step y) source)
        have hversion : hD'.versionSet.version (keep step y) = hD.versionSet.newest :=
          hD.version_of_top htop
        rwa [hversion] at hlast
  · rw [hp] at hparse
    have hold := VersionSet.readPayload_of_err (S := hD.versionSet) () hp
    have hnew := VersionSet.readPayload_of_err (S := hD'.versionSet) () hparse
    rw [hold, hnew]
    refine ⟨fun output h => (by cases h), fun e' h => ?_⟩
    cases h
    rfl

end Read

/-- **Adding a version** keeps the declaration compiling, and changes nothing in how documents
    are read but the one conversion that is added. -/
theorem append_preserves (hD : D.Accepted) (name : String) (New : Versioned J)
    (step : NewStep D.Latest New.Carrier)
    (hnew : hD.versionSet.newest < New.VERSION) :
    ∃ hD' : (D.append name New step).Accepted, ∀ bytes,
      (∀ output v, hD.versionSet.readJson bytes = .ok output → output.origin = .envelope v →
        (∀ y, step.convert output.value = .ok y → ∃ output',
          hD'.versionSet.readJson bytes = .ok output' ∧ output'.value = y ∧
          output'.origin = .envelope v ∧ output'.needsRewrite = true) ∧
        (∀ source, step.convert output.value = .error source → hD'.versionSet.readJson bytes =
          .err (.conversion ⟨v, hD.versionSet.newest, New.VERSION, source⟩))) ∧
      (∀ e, hD.versionSet.readJson bytes = .err e → (∀ u, e ≠ .unsupportedVersion u) →
        hD'.versionSet.readJson bytes = .err e) ∧
      (∀ u, hD.versionSet.readJson bytes = .err (.unsupportedVersion u) →
        u.found ≠ New.VERSION → ∃ u', u'.found = u.found ∧
          hD'.versionSet.readJson bytes = .err (.unsupportedVersion u')) := by
  have hD' := hD.append name step hnew
  refine ⟨hD', fun bytes => ?_⟩
  rcases VersionSet.parse_cases J bytes with ⟨e, he⟩ | ⟨version, data, v, henv, hv⟩
  · -- refused before the version set is asked
    have hold := VersionSet.readJsonWith_of_parse_err (S := hD.versionSet) () he
    have hnew := VersionSet.readJsonWith_of_parse_err (S := hD'.versionSet) () he
    refine ⟨fun output v h => ?_, fun e' h _ => ?_, fun u h => ?_⟩
    · exact absurd (hold.symm.trans h) (by simp)
    · cases hold.symm.trans h
      exact hnew
    · exact absurd (hold.symm.trans h) (by simp)
  · have hread := VersionSet.readJsonWith_of_isEnvelope (S := hD.versionSet) () henv hv
      fun hmem _ _ => (versionSet_parseContract hD.wellFormed).oneValue hmem henv.valueAt_data
    have hread' := VersionSet.readJsonWith_of_isEnvelope (S := hD'.versionSet) () henv hv
      fun hmem _ _ => (versionSet_parseContract hD'.wellFormed).oneValue hmem henv.valueAt_data
    by_cases hmem : v ∈ D.VERSIONS
    · have hle : v ≤ hD.versionSet.newest := hD.versionSet.le_newest hmem
      obtain ⟨hok, herr⟩ := readPayload_append (c := memberCursor bytes data) hD hD' hmem
      replace hread := hread.trans (if_pos hmem)
      replace hread' := hread'.trans (if_pos (mem_VERSIONS_append hmem))
      refine ⟨fun output u h ho => ?_, fun e h _ => ?_, fun u h => ?_⟩
      · have hpayload := hread.symm.trans h
        obtain rfl : u = v := by
          rw [VersionSet.readPayload_ok hpayload] at ho
          cases ho
          rfl
        obtain ⟨hconverted, hfailed⟩ := hok output hpayload
        refine ⟨fun y hy => ⟨_, hread'.trans (hconverted y hy), rfl, rfl, ?_⟩, fun source hs =>
          hread'.trans (hfailed source hs)⟩
        exact decide_eq_true (hle.trans_lt hnew)
      · exact hread'.trans (herr e (hread.symm.trans h))
      · exact absurd (hread.symm.trans h) (VersionSet.readPayload_ne_unsupported u)
    · replace hread := hread.trans (if_neg hmem)
      refine ⟨fun output u h => ?_, fun e h hne => ?_, fun u h hfound => ?_⟩
      · exact absurd (hread.symm.trans h) (by simp)
      · cases hread.symm.trans h
        exact absurd rfl (hne _)
      · cases hread.symm.trans h
        have hmem' : v ∉ (D.append name New step).VERSIONS := by
          rw [VERSIONS_append]
          simpa [hmem] using hfound
        exact ⟨⟨v, hD'.versionSet.VERSIONS⟩, rfl, hread'.trans (if_neg hmem')⟩

/-- A counter is read and converted once more, and one that was refused still is. -/
theorem append_preserves_counters :
    ∃ hD' : (counters.append "V5" (.counter 5) (.next fun n : UInt32 => n + 1)).Accepted,
      (∃ output',
        hD'.versionSet.readJson (ascii "\x7b\"version\":1,\"versioned_data\":7\x7d") =
          .ok output' ∧
        output'.value = (10 : UInt32) ∧ output'.origin = .envelope 1 ∧
        output'.needsRewrite = true) ∧
      hD'.versionSet.readJson (ascii "\x7b\"version\":3,\"versioned_data\":200\x7d") =
        .err (.conversion ⟨3, 3, 4, .mk "out of range" none⟩) := by
  have hread : counters_accepted.versionSet.readJson
      (ascii "\x7b\"version\":1,\"versioned_data\":7\x7d") = .ok ⟨(9 : UInt32), .envelope 1, 4⟩ :=
    rfl
  have hrefused : counters_accepted.versionSet.readJson
      (ascii "\x7b\"version\":3,\"versioned_data\":200\x7d") =
        .err (.conversion ⟨3, 3, 4, .mk "out of range" none⟩) := rfl
  have hnew : counters_accepted.versionSet.newest < (Versioned.counter 5).VERSION := by decide
  obtain ⟨hD', hall⟩ := append_preserves counters_accepted "V5" (.counter 5)
    (.next fun n : UInt32 => n + 1) hnew
  obtain ⟨hconverted, -⟩ := (hall _).1 _ 1 hread rfl
  exact ⟨hD', hconverted (10 : UInt32) rfl, (hall _).2.1 _ hrefused fun u h => by cases h⟩

end Declaration

end VersionedEnvelope
