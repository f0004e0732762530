import VersionedEnvelope.Part

/-!
# Types read at a fixed version

A type is read at its own version through the blanket implementation, or through a declared set
of which it is the newest payload.  Callers move from the one to the other as versions are added.

* `single` — the declaration with one variant.
* `Accepted.latestIs` — a set whose newest variant holds its `Latest` is done with it as it is.
* `newestPart` — the type is a part of every set whose newest variant holds it.
* `fixed_version_agrees` — the two read alike, but for the versions that only the set supports.
-/

set_option autoImplicit false

namespace VersionedEnvelope

open Json Ladder

variable {J : SerdeJson}

/-- `version_set! { enum S -> T { V(T) } }`. -/
def Declaration.single (T : Versioned J) : Declaration J where
  name := "S"
  Variant := Unit
  variants := [()]
  mem_variants _ := List.mem_singleton_self _
  stringify _ := "V"
  payload _ := T
  Latest := T.Carrier
  kind _ := .done id

namespace Declaration

variable {D : Declaration J}

theorem single_accepted (T : Versioned J) : (single T).Accepted where
  wellFormed := assertVersionSetWellFormed_iff.2
    ⟨List.cons_ne_nil _ _, List.pairwise_singleton _ _⟩
  checked _ := if_pos rfl

/-- `impl<T> From<T> for T`: a payload of type `Latest` is converted into it as it is. -/
def IntoSelf (D : Declaration J) (var : D.Variant) (hL : D.Latest = (D.payload var).Carrier) :
    Prop :=
  ∀ into, D.kind var = .done into → ∀ x, into x = cast hL.symm x

/-- The newest variant has no step. -/
theorem Accepted.kind_newest (hD : D.Accepted) {var : D.Variant}
    (hvar : D.variants.getLast? = some var) : ∃ into, D.kind var = .done into := by
  have hnewest := (newest_eq_iff hD.wellFormed).2 hvar
  have hcheck := (check_eq_ok hD.wellFormed).1 (hD.checked var)
  cases hk : D.kind var with
  | next target into =>
    rw [hk, hnewest] at hcheck
    exact absurd hcheck (not_lt.2 (hD.versionSet.le_newest (D.versionOf_mem target)))
  | tryNext target tryInto =>
    rw [hk, hnewest] at hcheck
    exact absurd hcheck (not_lt.2 (hD.versionSet.le_newest (D.versionOf_mem target)))
  | done into => exact ⟨into, rfl⟩

/-- Where `Latest` is the newest payload type, a value of the newest version is done as it is. -/
theorem Accepted.step_newest (hD : D.Accepted) {var : D.Variant}
    (hvar : D.variants.getLast? = some var) (hL : D.Latest = (D.payload var).Carrier)
    (hinto : D.IntoSelf var hL) (x : (D.payload var).Carrier) :
    D.step ⟨var, x⟩ () = .done (cast hL.symm x) := by
  obtain ⟨into, hk⟩ := hD.kind_newest hvar
  simp only [step, hk, hinto into hk x]

/-- **A set whose newest payload type is its `Latest`** parses its newest version as that type, and
    is done with it as it is. -/
def Accepted.latestIs (hD : D.Accepted) {var : D.Variant}
    (hvar : D.variants.getLast? = some var) (hL : D.Latest = (D.payload var).Carrier)
    (hinto : D.IntoSelf var hL) : hD.versionSet.LatestIs (D.payload var) where
  carrier := hL
  version := (newest_eq_iff hD.wellFormed).2 hvar
  variant x := ⟨var, x⟩
  version_variant _ := (newest_eq_iff hD.wellFormed).2 hvar
  parse c := by
    rw [← (newest_eq_iff hD.wellFormed).2 hvar]
    exact parse_versionOf hD.wellFormed var c
  step x _ := hD.step_newest hvar hL hinto x

/-- **The newest payload type is a part of the set.** -/
def Accepted.newestPart (hD : D.Accepted) {var : D.Variant}
    (hvar : D.variants.getLast? = some var) (hL : D.Latest = (D.payload var).Carrier)
    (hinto : D.IntoSelf var hL) : (D.payload var).versionSet.Part hD.versionSet where
  context := id
  keep x := ⟨var, x⟩
  out := cast hL.symm
  versions := by
    obtain ⟨older, hvars⟩ := List.getLast?_eq_some_iff.1 hvar
    refine ⟨older.map D.versionOf, ?_⟩
    show _ = D.variants.map D.versionOf
    rw [hvars, List.map_append]
    rfl
  version _ := rfl
  parse hv c := by
    obtain rfl := List.mem_singleton.1 hv
    exact parse_versionOf hD.wellFormed var c
  parsed hv _ := (List.mem_singleton.1 hv).symm
  rung _ x := by
    obtain ⟨into, hk⟩ := hD.kind_newest hvar
    refine (congrFun (rung_eq hD.wellFormed) ⟨var, x⟩).trans ?_
    show D.conversion ⟨var, x⟩ = .top (cast hL.symm x)
    simp only [conversion, hk, hinto into hk x]

/-- The type as a part of the declaration with one variant, which is all of it. -/
def singlePart (T : Versioned J) : T.versionSet.Part (single_accepted T).versionSet :=
  (single_accepted T).newestPart (show (single T).variants.getLast? = some () from rfl) rfl
    fun into h x => by cases h; rfl

/-- **A type at its version, and as the newest payload of a set.**  Every reader returns the same
    through the blanket implementation and through the declaration with one variant; and a set
    whose newest variant holds the type returns the same but for the versions that it adds. -/
theorem fixed_version_agrees (T : Versioned J) {D : Declaration J} (hD : D.Accepted)
    {var : D.Variant} (hvar : D.variants.getLast? = some var)
    (hL : D.Latest = (D.payload var).Carrier) (hinto : D.IntoSelf var hL) (bytes : Bytes) :
    (∃ hT : (single T).Accepted,
      hT.versionSet.readJson bytes = T.versionSet.readJson bytes ∧
      hT.versionSet.readUntaggedJson bytes = T.versionSet.readUntaggedJson bytes ∧
      (∀ fallback, hT.versionSet.readJsonOrElse bytes fallback =
        T.versionSet.readJsonOrElse bytes fallback) ∧
      hT.versionSet.readJsonOrUntagged bytes = T.versionSet.readJsonOrUntagged bytes) ∧
    ((∀ u, (D.payload var).versionSet.readJson bytes ≠ .err (.unsupportedVersion u)) →
      hD.versionSet.readJson bytes =
        ReadOutput.map (cast hL.symm) <$> (D.payload var).versionSet.readJson bytes) := by
  constructor
  · have hT := single_accepted T
    have hparse := versionSet_parseContract hT.wellFormed
    have hparse' := T.versionSet_parseContract
    have hstep' := T.versionSet_stepContract
    let p := singlePart T
    refine ⟨hT, ?_, ?_, fun fallback => ?_, ?_⟩
    · exact (p.readJsonWith_of_eq hparse' hstep' hparse hT.stepContract rfl bytes ()).trans
        (id_map _)
    · exact (p.readUntaggedJsonWith_of_eq hstep' hT.stepContract rfl bytes ()).trans (id_map _)
    · have hread := p.readJsonOrElseWith_of_eq hparse' hstep' hparse hT.stepContract rfl bytes ()
        fallback
      have hfallback : (fun reason => p.out <$> fallback reason) = fallback :=
        funext fun reason => id_map _
      rw [hfallback] at hread
      exact hread.trans (id_map _)
    · exact (p.readJsonOrUntaggedWith_of_eq hparse' hstep' hparse hT.stepContract rfl bytes
        ()).trans (id_map _)
  · intro hsupported
    rcases (hD.newestPart hvar hL hinto).readJsonWith (D.payload var).versionSet_parseContract
      (D.payload var).versionSet_stepContract (versionSet_parseContract hD.wellFormed)
      hD.stepContract bytes () with heq | ⟨v, -, -, hread⟩
    · exact heq
    · exact absurd hread (hsupported _)

/-- A counter of the newest version, by itself and in the set. -/
theorem fixed_version_agrees_counters :
    (Versioned.counter 4).versionSet.readJson
        (ascii "\x7b\"version\":4,\"versioned_data\":7\x7d") =
      .ok ⟨(7 : UInt32), .envelope 4, 4⟩ ∧
    counters_accepted.versionSet.readJson
        (ascii "\x7b\"version\":4,\"versioned_data\":7\x7d") =
      .ok ⟨(7 : UInt32), .envelope 4, 4⟩ := by
  have hread : (Versioned.counter 4).versionSet.readJson
      (ascii "\x7b\"version\":4,\"versioned_data\":7\x7d") =
        .ok ⟨(7 : UInt32), .envelope 4, 4⟩ := rfl
  have hvar : counters.variants.getLast? = some .V4 := rfl
  obtain ⟨-, hset⟩ := fixed_version_agrees (.counter 4) counters_accepted hvar rfl
    (fun into h x => by cases h; rfl) (ascii "\x7b\"version\":4,\"versioned_data\":7\x7d")
  have hread' := hset fun u hu => absurd (hread.symm.trans hu) (by simp)
  exact ⟨hread, hread'.trans (congrArg (ReadOutput.map id <$> ·) hread)⟩

end Declaration

end VersionedEnvelope
