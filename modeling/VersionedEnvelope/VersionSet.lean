import VersionedEnvelope.Errors
import VersionedEnvelope.Json.Decimal
import VersionedEnvelope.Ladder
import VersionedEnvelope.SerdeJson

/-!
# Version sets

The trait `VersionSet` with its compile-time check, and the traits of the payload types.

* `assertVersionSetWellFormed_iff` — the check passes exactly on nonempty ascending lists.
* `assertVersionSetWellFormedIndexed_eq` — its loop ends, and no index is out of range.
* `VersionSet` — an implementation whose `VERSIONS` pass the check, with arbitrary callbacks.
* `StepContract`, `ParseContract` — what the trait asks of `step` and `parse`.
* `SameText` — that a payload is parsed alike wherever it stands.
* `Versioned.versionSet` — the blanket implementation for a type read at a fixed version.
-/

set_option autoImplicit false

namespace VersionedEnvelope

open Json Ladder

/-! ## The traits of payload types -/

/-- The text `t` of a value stands at the cursor. -/
def TextAt (inRange : Bytes → Bool) (c : Cursor) (t : Bytes) : Prop :=
  ∃ j r, ValueAt inRange c j r ∧ skipWs c.rest = t ++ r

/-- `DeserializeOwned`, run on the deserializer.  An implementation takes one value. -/
structure Deserialize (J : SerdeJson) (T : Type) where
  deserialize : Cursor → Except J.Error (T × Cursor)
  oneValue : ∀ {c c' : Cursor} {j : Json} {r : Bytes} {x : T}, ValueAt J.inRange c j r →
    deserialize c = .ok (x, c') → c' = c.moveTo r

/-- What is made of a value is made of its text, wherever it stands.  An implementation is generic
    in the deserializer; but a `Deserializer` also shows the positions of its errors, and one that
    decides by these is not meant. -/
def Deserialize.SameText {J : SerdeJson} {T : Type} (D : Deserialize J T) : Prop :=
  ∀ ⦃c c' : Cursor⦄ ⦃t : Bytes⦄, TextAt J.inRange c t → TextAt J.inRange c' t →
    (D.deserialize c).toOption.map (·.1) = (D.deserialize c').toOption.map (·.1)

/-- The text at a cursor determines its value. -/
theorem TextAt.unique {inRange : Bytes → Bool} {c c' : Cursor} {t r r' : Bytes} {j j' : Json}
    (h : ValueAt inRange c j r) (ht : skipWs c.rest = t ++ r) (h' : ValueAt inRange c' j' r')
    (ht' : skipWs c'.rest = t ++ r') : j = j' :=
  (readValue_unique (readValue_text h ht) (readValue_text h' ht')).1

/-- A type read by the reference deserializer: a value, and what it means. -/
def Deserialize.reference {T : Type} (inRange : Bytes → Bool) (ofJson : Json → Option T) :
    Deserialize (SerdeJson.reference inRange) T where
  deserialize c := SerdeJson.orError ((readValue inRange c.remainingDepth c.rest).bind
    fun (j, r) => (ofJson j).map (·, c.moveTo r))
  oneValue {c c' j r x} hj h := by
    obtain ⟨⟨j', r'⟩, hj', hx⟩ := Option.bind_eq_some_iff.1 (SerdeJson.orError_eq_ok.1 h)
    obtain ⟨y, -, heq⟩ := Option.map_eq_some_iff.1 hx
    cases heq
    rw [(readValue_unique hj hj').2]

theorem Deserialize.reference_sameText {T : Type} {inRange : Bytes → Bool}
    (ofJson : Json → Option T) : (reference inRange ofJson).SameText := by
  intro c c' t h h'
  obtain ⟨j, r, hj, ht⟩ := h
  obtain ⟨j', r', hj', ht'⟩ := h'
  obtain rfl := TextAt.unique hj ht hj' ht'
  have hj : readValue inRange c.remainingDepth c.rest = some (j, r) := hj
  have hj' : readValue inRange c'.remainingDepth c'.rest = some (j, r') := hj'
  simp only [reference, hj, hj', Option.bind_some]
  cases ofJson j <;> rfl

/-- A type that implements `Versioned`, `Serialize` and `DeserializeOwned`. -/
structure Versioned (J : SerdeJson) where
  Carrier : Type
  typeName : String
  VERSION : UInt32
  /-- `serde_json::to_vec` on a value of the type. -/
  serialize : Carrier → Except J.Error Bytes
  deserialize : Deserialize J Carrier

/-- `T::deserialize` as a seed. -/
def Versioned.seed {J : SerdeJson} (T : Versioned J) : J.Seed T.Carrier := fun de =>
  Exec.lift (T.deserialize.deserialize de)

theorem Versioned.seed_sameText {J : SerdeJson} {T : Versioned J} (hT : T.deserialize.SameText)
    {c c' d : Cursor} {t : Bytes} {x : T.Carrier} (hc : TextAt J.inRange c t)
    (hc' : TextAt J.inRange c' t) (h : T.seed c = .ok (x, d)) : ∃ d', T.seed c' = .ok (x, d') := by
  have hsame := hT hc hc'
  rw [Exec.lift_eq_ok.1 h] at hsame
  obtain ⟨⟨y, d'⟩, hd', heq⟩ := Option.map_eq_some_iff.1 hsame.symm
  obtain rfl : y = x := heq
  exact ⟨d', (Exec.returns_lift hd').some⟩

/-- A number as a payload of some version, under the reference deserializer. -/
def Versioned.counter (version : UInt32) : Versioned (SerdeJson.reference fun _ => true) where
  Carrier := UInt32
  typeName := "Counter"
  VERSION := version
  serialize n := .ok (decimal n.toNat)
  deserialize := .reference _ versionNumber

/-! ## Well-formedness -/

/-- The panic on an empty list. -/
def emptyVersions : String :=
  "a version set must list at least one version in `VersionSet::VERSIONS`"

/-- The panic on a list that is not in order. -/
def unorderedVersions : String :=
  "a version set's `VersionSet::VERSIONS` must be strictly ascending, " ++
    "oldest version first"

/-- `assert_version_set_well_formed`, on `S::VERSIONS`. -/
def assertVersionSetWellFormed (versions : List UInt32) : Exec Empty Unit :=
  if versions.isEmpty then .panics emptyVersions
  else
    Exec.loop (fun index =>
      if h : index < versions.length then
        if versions[index - 1] < versions[index] then .ok (.next (index + 1))
        else .panics unorderedVersions
      else .ok (.done ())) (versions.length + 1) 1

/-- One turn of the loop of the check, where an index out of range would panic.  The new index is
    at most the length, so that it fits. -/
def neighboursTurn (versions : List UInt32) (index : Nat) : Exec Empty (Exec.Flow Nat Unit) :=
  if index < versions.length then do
    let earlier ← Exec.index versions (← Exec.checkedSub index 1)
    let later ← Exec.index versions index
    if earlier < later then pure (.next (index + 1)) else .panics unorderedVersions
  else pure (.done ())

/-- The check, where an index out of range would panic. -/
def assertVersionSetWellFormedIndexed (fuel : Nat) (versions : List UInt32) : Exec Empty Unit :=
  if versions.isEmpty then .panics emptyVersions
  else Exec.loop (neighboursTurn versions) fuel 1

section Check

variable {versions : List UInt32}

/-- From the second index on, both elements are in range. -/
theorem neighboursTurn_eq {index : Nat} (hpos : 1 ≤ index) :
    neighboursTurn versions index =
      if h : index < versions.length then
        if versions[index - 1] < versions[index] then .ok (.next (index + 1))
        else .panics unorderedVersions
      else .ok (.done ()) := by
  unfold neighboursTurn
  by_cases hindex : index < versions.length
  · have hearlier : index - 1 < versions.length := by omega
    rw [if_pos hindex, dif_pos hindex, Exec.checkedSub_of_le hpos, Exec.ok_bind,
      Exec.index_of_lt hearlier, Exec.ok_bind, Exec.index_of_lt hindex, Exec.ok_bind]
    rfl
  · rw [if_neg hindex, dif_neg hindex]
    rfl

/-- **The loop ends, and neighbours decide about the whole list**: it looks at each pair once, with
    both in range, and stops at one that is not in order. -/
theorem neighbours_loop {body : Nat → Exec Empty (Exec.Flow Nat Unit)}
    (hbody : ∀ index, 1 ≤ index → body index = neighboursTurn versions index) {fuel : Nat}
    (hfuel : versions.length < fuel) :
    Exec.loop body fuel 1 =
      if Ascending versions then .ok () else .panics unorderedVersions := by
  -- the neighbours below `index` are in order
  refine Exec.loop_rule
    (Q := fun r => r = if Ascending versions then .ok () else .panics unorderedVersions)
    (I := fun index => 1 ≤ index ∧
      ∀ i (hi : i + 1 < versions.length), i + 1 < index → versions[i] < versions[i + 1])
    (μ := fun index => versions.length - index) ?_ _ _ ⟨Nat.le_refl 1, fun i _ h => by omega⟩
    (by omega)
  rintro index ⟨hpos, hbelow⟩
  rw [hbody index hpos, neighboursTurn_eq hpos]
  by_cases hindex : index < versions.length
  · by_cases hlt : versions[index - 1] < versions[index]
    · simp only [dif_pos hindex, if_pos hlt]
      refine ⟨⟨by omega, fun i hi hlt' => ?_⟩, by omega⟩
      rcases Nat.lt_or_eq_of_le (Nat.le_of_lt_succ hlt') with h | rfl
      · exact hbelow i hi h
      · exact hlt
    · have hnot : ¬ Ascending versions := fun hasc => hlt (hasc.getElem_lt (by omega) hindex)
      simp only [dif_pos hindex, if_neg hlt, if_neg hnot]
  · have hasc : Ascending versions :=
      Ascending.of_neighbours fun i hi => hbelow i hi (by omega)
    simp only [dif_neg hindex, if_pos hasc]

/-- **All the check can come to.** -/
theorem assertVersionSetWellFormed_eq :
    assertVersionSetWellFormed versions =
      if versions = [] then .panics emptyVersions
      else if Ascending versions then .ok () else .panics unorderedVersions := by
  unfold assertVersionSetWellFormed
  rw [neighbours_loop (fun index hpos => (neighboursTurn_eq hpos).symm) (Nat.lt_succ_self _)]
  simp only [List.isEmpty_iff]

/-- **No index is out of range, and the loop ends** in any number of turns above the length. -/
theorem assertVersionSetWellFormedIndexed_eq {fuel : Nat} (hfuel : versions.length < fuel) :
    assertVersionSetWellFormedIndexed fuel versions = assertVersionSetWellFormed versions := by
  rw [assertVersionSetWellFormed_eq, assertVersionSetWellFormedIndexed,
    neighbours_loop (fun _ _ => rfl) hfuel]
  simp only [List.isEmpty_iff]

/-- **The check passes exactly on nonempty ascending lists.** -/
theorem assertVersionSetWellFormed_iff :
    assertVersionSetWellFormed versions = .ok () ↔ versions ≠ [] ∧ Ascending versions := by
  rw [assertVersionSetWellFormed_eq]
  split_ifs with hnil hasc
  · simp [hnil]
  · simp [hnil, hasc]
  · simp [hasc]

end Check

/-! ## Version sets -/

/-- `Step`. -/
inductive Step (Value Latest : Type) where
  | next (value : Value)
  | done (latest : Latest)
  | failed (toVersion : UInt32) (source : DynError)

def Step.isNext {Value Latest : Type} : Step Value Latest → Bool
  | .next _ => true
  | .done _ => false
  | .failed _ _ => false

/-- An implementation of `VersionSet` that compiles: its `VERSIONS` pass the check.  `parse` may
    do anything; `version` and `step` return, so that a panic of their own is not covered. -/
structure VersionSet (J : SerdeJson) where
  /-- `Self`. -/
  Value : Type
  Latest : Type
  Context : Type
  typeName : String
  VERSIONS : List UInt32
  parse : UInt32 → J.Seed Value
  version : Value → UInt32
  step : Value → Context → Step Value Latest
  wellFormed : assertVersionSetWellFormed VERSIONS = .ok ()

namespace VersionSet

variable {J : SerdeJson} (S : VersionSet J)

theorem ascending : Ascending S.VERSIONS := (assertVersionSetWellFormed_iff.1 S.wellFormed).2

theorem versions_ne_nil : S.VERSIONS ≠ [] := (assertVersionSetWellFormed_iff.1 S.wellFormed).1

/-- The newest listed version. -/
def newest : UInt32 := S.VERSIONS.getLast S.versions_ne_nil

theorem newest_mem : S.newest ∈ S.VERSIONS := List.getLast_mem _

theorem le_newest {v : UInt32} (h : v ∈ S.VERSIONS) : v ≤ S.newest := S.ascending.le_getLast h _

/-- A conversion of `x` to a version is legal: it is listed and newer. -/
def Forward (x : S.Value) (toVersion : UInt32) : Prop :=
  toVersion ∈ S.VERSIONS ∧ S.version x < toVersion

/-- `step` on a value of a listed version: converting goes to a listed, newer version, and only
    the newest version is done. -/
structure StepContract : Prop where
  next : ∀ {x y : S.Value} {cx : S.Context}, S.version x ∈ S.VERSIONS → S.step x cx = .next y →
    S.Forward x (S.version y)
  failed : ∀ {x : S.Value} {cx : S.Context} {toVersion : UInt32} {source : DynError},
    S.version x ∈ S.VERSIONS → S.step x cx = .failed toVersion source → S.Forward x toVersion
  done : ∀ {x : S.Value} {cx : S.Context} {l : S.Latest}, S.version x ∈ S.VERSIONS →
    S.step x cx = .done l → S.version x = S.newest

/-- `parse` for a listed version, where a value stands: it returns, it takes that value, and
    what it makes of it has the version asked for. -/
structure ParseContract : Prop where
  settles : ∀ {v : UInt32} {c : Cursor} {j : Json} {r : Bytes}, v ∈ S.VERSIONS →
    ValueAt J.inRange c j r → (S.parse v c).Settles
  oneValue : ∀ {v : UInt32} {c c' : Cursor} {j : Json} {r : Bytes} {x : S.Value},
    v ∈ S.VERSIONS → ValueAt J.inRange c j r → S.parse v c = .ok (x, c') → c' = c.moveTo r
  version : ∀ {v : UInt32} {c c' : Cursor} {j : Json} {r : Bytes} {x : S.Value},
    v ∈ S.VERSIONS → ValueAt J.inRange c j r → S.parse v c = .ok (x, c') → S.version x = v

/-- What `parse` makes of a value is made of its text, wherever it stands.  A `parse` is generic in
    the deserializer, but that also shows the positions of its errors; one that decides by these is
    not meant. -/
def SameText : Prop :=
  ∀ ⦃v : UInt32⦄ ⦃c c' d : Cursor⦄ ⦃t : Bytes⦄ ⦃x : S.Value⦄, v ∈ S.VERSIONS →
    TextAt J.inRange c t → TextAt J.inRange c' t → S.parse v c = .ok (x, d) →
    ∃ d', S.parse v c' = .ok (x, d')

/-- The conversion ladder that `step` describes. -/
def rung (cx : S.Context) (x : S.Value) : Rung S.Value S.Latest (UInt32 × DynError) :=
  match S.step x cx with
  | .next y => .next y
  | .done l => .top l
  | .failed toVersion source => .broken (toVersion, source)

end VersionSet

/-! ## Types read at a fixed version -/

namespace Versioned

variable {J : SerdeJson} (T : Versioned J)

/-- `impl<T: Versioned + DeserializeOwned> VersionSet for T`. -/
def versionSet : VersionSet J where
  Value := T.Carrier
  Latest := T.Carrier
  Context := Unit
  typeName := T.typeName
  VERSIONS := [T.VERSION]
  parse _ := T.seed
  version _ := T.VERSION
  step x _ := .done x
  wellFormed := assertVersionSetWellFormed_iff.2 ⟨by simp, List.pairwise_singleton _ _⟩

instance : Unique T.versionSet.Context := inferInstanceAs (Unique Unit)

theorem versionSet_stepContract : T.versionSet.StepContract where
  next _ h := by cases h
  failed _ h := by cases h
  done _ _ := rfl

theorem versionSet_parseContract : T.versionSet.ParseContract where
  settles _ _ := Exec.settles_lift _
  oneValue _ hj h := T.deserialize.oneValue hj (Exec.lift_eq_ok.1 h)
  version hv _ _ := (List.mem_singleton.1 hv).symm

theorem versionSet_sameText (hT : T.deserialize.SameText) : T.versionSet.SameText :=
  fun _ _ _ _ _ _ _ hc hc' h => seed_sameText hT hc hc' h

end Versioned

end VersionedEnvelope
