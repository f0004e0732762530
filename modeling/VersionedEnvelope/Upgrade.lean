import VersionedEnvelope.VersionSet

/-!
# The upgrade loop

`upgrade` drives `step` from a value of the version asked for to the newest version.  `step` is
arbitrary; the loop checks what it returns.

* `versions_spec` — what the check of the listed versions establishes for their lookups.
* `upgradeTurn_cases` — all one turn can do.
* `upgradeTurn_panics_iff` — a turn panics exactly when the step is not legal.
* `upgrade_ne_hang`, `stepCalls_length_le` — the loop ends, after at most one call of `step`
  for each listed version from the one asked for.
* `stepCalls_isChain`, `stepCalls_ascending` — the values stepped are a chain of legal steps.
* `upgrade_ok_iff`, `upgrade_err_iff` — the last value stepped decides the result.
* `StepContract.upgrade_eq_of_climbs` — for a `step` that keeps its contract, the loop computes
  the climb of the conversion ladder.
-/

set_option autoImplicit false

namespace VersionedEnvelope

open Ladder

namespace VersionSet

variable {J : SerdeJson} (S : VersionSet J)

def latestVersion {E : Type} : Exec E UInt32 :=
  Exec.expect S.VERSIONS.getLast?
    "the version set has at least one version, which assert_version_set_well_formed established"

def isMember (version : UInt32) : Bool := (binarySearch S.VERSIONS version).isOk

def assertForward {E : Type} (fromVersion toVersion : UInt32) (returned : String) :
    Exec E Unit :=
  if ¬ S.isMember toVersion then
    .panics (s!"{S.typeName}::step for version {fromVersion} returned {returned} naming version " ++
      s!"{toVersion}, but {toVersion} is not in VERSIONS")
  else if toVersion ≤ fromVersion then
    .panics (s!"{S.typeName}::step for version {fromVersion} returned {returned} naming version " ++
      s!"{toVersion}, which is not newer")
  else .ok ()

/-- One turn of the loop of `upgrade`, on the value and its version. -/
def upgradeTurn (asked latest : UInt32) (cx : S.Context) :
    S.Value × UInt32 → Exec ConversionFailed (Exec.Flow (S.Value × UInt32) S.Latest) :=
  fun (value, fromVersion) =>
    if fromVersion = latest then
      match S.step value cx with
      | .done l => .ok (.done l)
      | .next next =>
        let toVersion := S.version next
        .panics (s!"{S.typeName}::step for version {fromVersion}, the last version in VERSIONS, " ++
          s!"returned Next naming version {toVersion}")
      | .failed toVersion _ =>
        .panics (s!"{S.typeName}::step for version {fromVersion}, the last version in VERSIONS, " ++
          s!"returned Failed naming version {toVersion}")
    else
      match S.step value cx with
      | .next next => do
        let toVersion := S.version next
        S.assertForward fromVersion toVersion "Next"
        pure (.next (next, toVersion))
      | .done _ =>
        .panics (s!"{S.typeName}::step for version {fromVersion} returned Done, but the last " ++
          s!"version in VERSIONS is {latest}")
      | .failed toVersion source => do
        S.assertForward fromVersion toVersion "Failed"
        .err ⟨asked, fromVersion, toVersion, source⟩

def upgrade (value : S.Value) (asked : UInt32) (cx : S.Context) :
    Exec ConversionFailed S.Latest := do
  let latest ← S.latestVersion
  let fromVersion := S.version value
  if fromVersion ≠ asked then
    .panics (s!"{S.typeName}::parse was asked for version {asked}, but returned a version " ++
      s!"{fromVersion} value")
  else Exec.loop (S.upgradeTurn asked latest cx) (S.VERSIONS.length + 1) (value, fromVersion)

/-- The values `upgrade` calls `step` on, in order: one in each turn of its loop. -/
def stepCalls (value : S.Value) (asked : UInt32) (cx : S.Context) : List S.Value :=
  if S.version value ≠ asked then []
  else (Exec.loopTrace (S.upgradeTurn asked S.newest cx) (S.VERSIONS.length + 1)
    (value, asked)).map (·.1)

/-- How many of these calls return `Next`. -/
def nextSteps (value : S.Value) (asked : UInt32) (cx : S.Context) : Nat :=
  (S.stepCalls value asked cx).countP fun y => (S.step y cx).isNext

/-! ## The listed versions -/

theorem latestVersion_eq {E : Type} : S.latestVersion (E := E) = .ok S.newest := by
  rw [latestVersion, List.getLast?_eq_some_getLast S.versions_ne_nil]
  rfl

theorem isMember_iff {v : UInt32} : S.isMember v = true ↔ v ∈ S.VERSIONS :=
  binarySearch_isOk S.ascending v

/-- **What the check of the versions establishes.**  It looks at neighbours only, ends, and has no
    index out of range; it passes exactly on the lists that have a version and in which every
    earlier one is smaller than every later one; and on these the search finds exactly the listed
    versions, and the last one is the greatest. -/
theorem versions_spec (versions : List UInt32) :
    (∀ fuel, versions.length < fuel →
      assertVersionSetWellFormedIndexed fuel versions = assertVersionSetWellFormed versions) ∧
    (assertVersionSetWellFormed versions = .ok () ∨
      assertVersionSetWellFormed versions = .panics emptyVersions ∨
      assertVersionSetWellFormed versions = .panics unorderedVersions) ∧
    (assertVersionSetWellFormed versions = .ok () ↔ versions ≠ [] ∧
      ∀ i j (_ : i < j) (_ : j < versions.length), versions[i] < versions[j]) ∧
    (assertVersionSetWellFormed versions = .ok () →
      (∀ v fuel, versions.length < fuel → ∃ found,
        binarySearchIndexed fuel versions v = .ok found ∧ (found.isOk = true ↔ v ∈ versions)) ∧
      ∀ (J : SerdeJson) (S : VersionSet J), S.VERSIONS = versions →
        (∀ v, S.isMember v = true ↔ v ∈ versions) ∧
        ∃ latest, (∀ E : Type, S.latestVersion (E := E) = .ok latest) ∧
          latest ∈ versions ∧ ∀ v ∈ versions, v ≤ latest) := by
  have hiff : assertVersionSetWellFormed versions = .ok () ↔
      versions ≠ [] ∧ Ascending versions := assertVersionSetWellFormed_iff
  refine ⟨fun fuel hfuel => assertVersionSetWellFormedIndexed_eq hfuel, ?_, ?_,
    fun hwell => ⟨?_, ?_⟩⟩
  · rw [assertVersionSetWellFormed_eq]
    split_ifs <;> simp
  · rw [hiff, Ascending, List.pairwise_iff_getElem]
    constructor
    · rintro ⟨hne, hasc⟩
      exact ⟨hne, fun i j hij hj => hasc i j (by omega) hj hij⟩
    · rintro ⟨hne, hasc⟩
      exact ⟨hne, fun i j _ hj hij => hasc i j hij hj⟩
  · intro v fuel hfuel
    exact ⟨_, binarySearchIndexed_eq hfuel v, binarySearch_isOk (hiff.1 hwell).2 v⟩
  · rintro J S rfl
    exact ⟨fun v => S.isMember_iff, S.newest, fun E => S.latestVersion_eq, S.newest_mem,
      fun v hv => S.le_newest hv⟩

/-! ## One turn -/

theorem assertForward_ok {E : Type} {u v : UInt32} {returned : String} (hv : v ∈ S.VERSIONS)
    (hlt : u < v) : S.assertForward (E := E) u v returned = .ok () := by
  rw [assertForward, if_neg (not_not.2 (S.isMember_iff.2 hv)), if_neg (not_le.2 hlt)]

/-- A conversion that is not forward panics. -/
theorem assertForward_cases {E : Type} (u v : UInt32) (returned : String) :
    (v ∈ S.VERSIONS ∧ u < v) ∨ ∃ m, S.assertForward (E := E) u v returned = .panics m := by
  unfold assertForward
  by_cases hmem : S.isMember v = true
  · by_cases hle : v ≤ u
    · rw [if_neg (not_not.2 hmem), if_pos hle]
      exact .inr ⟨_, rfl⟩
    · exact .inl ⟨S.isMember_iff.1 hmem, not_le.1 hle⟩
  · rw [if_pos hmem]
    exact .inr ⟨_, rfl⟩

variable {S} {asked v : UInt32} {cx : S.Context} {x : S.Value}

/-- **All one turn can do.** -/
theorem upgradeTurn_cases (asked v : UInt32) (cx : S.Context) (x : S.Value) :
    (∃ y, v ≠ S.newest ∧ S.step x cx = .next y ∧ S.version y ∈ S.VERSIONS ∧ v < S.version y ∧
      S.upgradeTurn asked S.newest cx (x, v) = .ok (.next (y, S.version y))) ∨
    (∃ l, v = S.newest ∧ S.step x cx = .done l ∧
      S.upgradeTurn asked S.newest cx (x, v) = .ok (.done l)) ∨
    (∃ toVersion source, v ≠ S.newest ∧ S.step x cx = .failed toVersion source ∧
      toVersion ∈ S.VERSIONS ∧ v < toVersion ∧
      S.upgradeTurn asked S.newest cx (x, v) = .err ⟨asked, v, toVersion, source⟩) ∨
    (∃ m, S.upgradeTurn asked S.newest cx (x, v) = .panics m) := by
  unfold upgradeTurn
  by_cases hv : v = S.newest
  · simp only [if_pos hv]
    cases hs : S.step x cx with
    | next y => exact .inr (.inr (.inr ⟨_, rfl⟩))
    | done l => exact .inr (.inl ⟨l, hv, rfl, rfl⟩)
    | failed toVersion source => exact .inr (.inr (.inr ⟨_, rfl⟩))
  · simp only [if_neg hv]
    cases hs : S.step x cx with
    | next y =>
      rcases S.assertForward_cases (E := ConversionFailed) v (S.version y) "Next" with
        ⟨hmem, hlt⟩ | ⟨m, hm⟩
      · exact .inl ⟨y, hv, rfl, hmem, hlt, by simp [S.assertForward_ok hmem hlt]⟩
      · exact .inr (.inr (.inr ⟨m, by simp [hm]⟩))
    | done l => exact .inr (.inr (.inr ⟨_, rfl⟩))
    | failed toVersion source =>
      rcases S.assertForward_cases (E := ConversionFailed) v toVersion "Failed" with
        ⟨hmem, hlt⟩ | ⟨m, hm⟩
      · exact .inr (.inr (.inl ⟨toVersion, source, hv, rfl, hmem, hlt,
          by simp [S.assertForward_ok hmem hlt]⟩))
      · exact .inr (.inr (.inr ⟨m, by simp [hm]⟩))

/-- What the trait asks of `step` on this value. -/
def StepLegal (S : VersionSet J) (cx : S.Context) (x : S.Value) : Prop :=
  match S.step x cx with
  | .next y => S.Forward x (S.version y)
  | .failed toVersion _ => S.Forward x toVersion
  | .done _ => S.version x = S.newest

theorem Forward.ne_newest {toVersion : UInt32} (h : S.Forward x toVersion) :
    S.version x ≠ S.newest := fun hv =>
  absurd (S.le_newest h.1) (not_le.2 (hv ▸ h.2))

/-- **A turn panics exactly when the step is not legal.** -/
theorem upgradeTurn_panics_iff (asked : UInt32) :
    (∃ m, S.upgradeTurn asked S.newest cx (x, S.version x) = .panics m) ↔ ¬ S.StepLegal cx x := by
  unfold StepLegal
  constructor
  · rintro ⟨m, hm⟩ hlegal
    unfold upgradeTurn at hm
    cases hs : S.step x cx with
    | next y =>
      simp only [hs] at hlegal hm
      simp [hlegal.ne_newest, S.assertForward_ok hlegal.1 hlegal.2] at hm
    | done l =>
      simp only [hs] at hlegal hm
      simp [hlegal] at hm
    | failed toVersion source =>
      simp only [hs] at hlegal hm
      simp [hlegal.ne_newest, S.assertForward_ok hlegal.1 hlegal.2] at hm
  · intro hlegal
    rcases upgradeTurn_cases asked (S.version x) cx x with ⟨y, -, hs, hmem, hlt, -⟩ |
      ⟨l, hv, hs, -⟩ | ⟨toVersion, source, -, hs, hmem, hlt, -⟩ | hpanics
    · exact absurd (by rw [hs]; exact ⟨hmem, hlt⟩) hlegal
    · exact absurd (by rw [hs]; exact hv) hlegal
    · exact absurd (by rw [hs]; exact ⟨hmem, hlt⟩) hlegal
    · exact hpanics

/-! ## The run -/

/-- A turn that goes on moves to a listed version above the one it was at. -/
theorem upgradeTurn_next {s s' : S.Value × UInt32}
    (h : S.upgradeTurn asked S.newest cx s = .ok (.next s')) :
    S.step s.1 cx = .next s'.1 ∧ s'.2 = S.version s'.1 ∧ s'.2 ∈ S.VERSIONS ∧ s.2 < s'.2 := by
  obtain ⟨x, v⟩ := s
  rcases upgradeTurn_cases asked v cx x with ⟨y, -, hs, hmem, hlt, hb⟩ | ⟨l, -, -, hb⟩ |
    ⟨toVersion, source, -, -, -, -, hb⟩ | ⟨m, hb⟩ <;> rw [hb] at h <;> cases h
  exact ⟨hs, rfl, hmem, hlt⟩

theorem loop_ne_hang (asked : UInt32) (cx : S.Context) (s : S.Value × UInt32) :
    Exec.loop (S.upgradeTurn asked S.newest cx) (S.VERSIONS.length + 1) s ≠ .hang := by
  refine Exec.loop_rule (I := fun _ => True) (μ := fun s => above S.VERSIONS s.2)
    (Q := fun r => r ≠ .hang) (fun s _ => ?_) _ s trivial
    (Nat.lt_succ_of_le (above_le_length _ _))
  obtain ⟨x, v⟩ := s
  rcases upgradeTurn_cases asked v cx x with ⟨y, -, -, hmem, hlt, hb⟩ | ⟨l, -, -, hb⟩ |
    ⟨toVersion, source, -, -, -, -, hb⟩ | ⟨m, hb⟩ <;> rw [hb]
  · exact ⟨trivial, above_lt hlt hmem⟩
  · simp
  · simp
  · simp

theorem upgrade_of_eq (h : S.version x = asked) :
    S.upgrade x asked cx =
      Exec.loop (S.upgradeTurn asked S.newest cx) (S.VERSIONS.length + 1) (x, asked) := by
  simp [upgrade, latestVersion_eq, h]

/-- A value of another version than the one asked for panics before any step. -/
theorem upgrade_of_ne (cx : S.Context) (h : S.version x ≠ asked) :
    ∃ m, S.upgrade x asked cx = .panics m := by
  simp [upgrade, latestVersion_eq, h]

/-- **The loop ends**, whatever `step` returns. -/
theorem upgrade_ne_hang (x : S.Value) (asked : UInt32) (cx : S.Context) :
    S.upgrade x asked cx ≠ .hang := by
  by_cases h : S.version x = asked
  · rw [upgrade_of_eq h]; exact loop_ne_hang _ _ _
  · obtain ⟨m, hm⟩ := upgrade_of_ne cx h
    rw [hm]; simp

/-- One value is stepped after another: a legal step leads from the one to the other. -/
def LegalNext (S : VersionSet J) (cx : S.Context) (x y : S.Value) : Prop :=
  S.step x cx = .next y ∧ S.Forward x (S.version y)

/-- A chain of legal steps, and its last value. -/
def LegalChain (S : VersionSet J) (cx : S.Context) (calls : List S.Value) (last : S.Value) :
    Prop :=
  calls.IsChain (S.LegalNext cx) ∧ calls.getLast? = some last

section StepCalls

variable (cx : S.Context) (hx : S.version x = asked)
include hx

/-- The states of the loop are the values stepped and their versions. -/
theorem loopTrace_eq :
    Exec.loopTrace (S.upgradeTurn asked S.newest cx) (S.VERSIONS.length + 1) (x, asked) =
      (S.stepCalls x asked cx).map fun y => (y, S.version y) := by
  have hinv := Exec.loopTrace_forall (S.upgradeTurn asked S.newest cx)
    (I := fun s => s.2 = S.version s.1) (fun s s' _ h => (upgradeTurn_next h).2.1)
    (S.VERSIONS.length + 1) (s := (x, asked)) hx.symm
  rw [stepCalls, if_neg (not_not.2 hx), List.map_map]
  refine (List.map_id _).symm.trans (List.map_congr_left fun s hs => ?_)
  exact Prod.ext rfl (hinv s hs)

theorem stepCalls_head : (S.stepCalls x asked cx).head? = some x := by
  rw [stepCalls, if_neg (not_not.2 hx), List.head?_map, Exec.loopTrace_head]
  rfl

/-- **The values stepped are a chain of legal steps.** -/
theorem stepCalls_isChain : (S.stepCalls x asked cx).IsChain (S.LegalNext cx) := by
  have hchain := Exec.loopTrace_isChain (S.upgradeTurn asked S.newest cx)
    (S.VERSIONS.length + 1) (x, asked)
  rw [loopTrace_eq cx hx, List.isChain_map] at hchain
  refine hchain.imp fun y z h => ?_
  obtain ⟨hs, -, hmem, hlt⟩ := upgradeTurn_next h
  exact ⟨hs, hmem, hlt⟩

theorem stepCalls_ascending : Ascending ((S.stepCalls x asked cx).map S.version) := by
  apply List.isChain_iff_pairwise.1
  rw [List.isChain_map]
  exact (stepCalls_isChain cx hx).imp fun y z h => h.2.2

theorem stepCalls_mem (hasked : asked ∈ S.VERSIONS) :
    ∀ y ∈ S.stepCalls x asked cx, S.version y ∈ S.VERSIONS := by
  have hinv := Exec.loopTrace_forall (S.upgradeTurn asked S.newest cx)
    (I := fun s => s.2 ∈ S.VERSIONS) (fun s s' _ h => (upgradeTurn_next h).2.2.1)
    (S.VERSIONS.length + 1) (s := (x, asked)) hasked
  rw [loopTrace_eq cx hx] at hinv
  intro y hy
  exact hinv _ (List.mem_map_of_mem hy)

/-- The versions stepped start from the one asked for. -/
theorem stepCalls_ge : ∀ v ∈ (S.stepCalls x asked cx).map S.version, asked ≤ v := by
  intro v hv
  have hne : (S.stepCalls x asked cx).map S.version ≠ [] := List.ne_nil_of_mem hv
  have hhead : ((S.stepCalls x asked cx).map S.version).head hne = asked := by
    refine Option.some.inj ((List.head?_eq_some_head hne).symm.trans ?_)
    rw [List.head?_map, stepCalls_head cx hx, Option.map_some, hx]
  exact hhead ▸ (stepCalls_ascending cx hx).head_le hv hne

/-- **At most one call for each listed version from the one asked for.** -/
theorem stepCalls_length_le (hasked : asked ∈ S.VERSIONS) :
    (S.stepCalls x asked cx).length ≤ S.VERSIONS.countP (asked ≤ ·) := by
  have hasc := stepCalls_ascending cx hx
  have hsub : (S.stepCalls x asked cx).map S.version ⊆ S.VERSIONS.filter (asked ≤ ·) := by
    intro v hv
    obtain ⟨y, hy, rfl⟩ := List.mem_map.1 hv
    exact List.mem_filter.2 ⟨stepCalls_mem cx hx hasked y hy,
      decide_eq_true (stepCalls_ge cx hx _ hv)⟩
  have hlen := (List.subperm_of_subset hasc.nodup hsub).length_le
  rwa [List.length_map, ← List.countP_eq_length_filter] at hlen

/-- The last value stepped, and what its turn does. -/
theorem exists_last :
    ∃ last, (S.stepCalls x asked cx).getLast? = some last ∧
      Exec.exit (S.upgradeTurn asked S.newest cx (last, S.version last)) =
        some (S.upgrade x asked cx) := by
  obtain ⟨s, hs, hexit⟩ := Exec.loopTrace_exit (loop_ne_hang asked cx (x, asked))
  rw [loopTrace_eq cx hx, List.getLast?_map] at hs
  obtain ⟨last, hlast, rfl⟩ := Option.map_eq_some_iff.1 hs
  exact ⟨last, hlast, by rw [upgrade_of_eq hx]; exact hexit⟩

/-- **A value is returned exactly when the chain ends at the newest version with `Done`.** -/
theorem upgrade_ok_iff {l : S.Latest} :
    S.upgrade x asked cx = .ok l ↔ ∃ last, (S.stepCalls x asked cx).getLast? = some last ∧
      S.version last = S.newest ∧ S.step last cx = .done l := by
  obtain ⟨last, hlast, hexit⟩ := exists_last cx hx
  rw [hlast]
  rcases upgradeTurn_cases asked (S.version last) cx last with ⟨y, hne, hs, -, -, hb⟩ |
    ⟨l', hv, hs, hb⟩ | ⟨toVersion, source, hne, hs, -, -, hb⟩ | ⟨m, hb⟩ <;>
      rw [hb] at hexit
  · cases hexit
  · rw [← Option.some.inj hexit]
    constructor
    · intro h; cases h; exact ⟨last, rfl, hv, hs⟩
    · rintro ⟨y, hy, -, hs'⟩; cases hy; rw [hs] at hs'; cases hs'; rfl
  · rw [← Option.some.inj hexit]
    simp only [reduceCtorEq, false_iff]
    rintro ⟨y, hy, hv, -⟩; cases hy; exact hne hv
  · rw [← Option.some.inj hexit]
    simp only [reduceCtorEq, false_iff]
    rintro ⟨y, hy, hv, hs⟩
    cases hy
    simp [upgradeTurn, hv, hs] at hb

/-- **A conversion failure is returned exactly when the chain ends below the newest version
    with a legal `Failed`**, and it names that step. -/
theorem upgrade_err_iff {e : ConversionFailed} :
    S.upgrade x asked cx = .err e ↔ ∃ last toVersion source,
      (S.stepCalls x asked cx).getLast? = some last ∧ S.version last ≠ S.newest ∧
      S.step last cx = .failed toVersion source ∧ S.Forward last toVersion ∧
      e = ⟨asked, S.version last, toVersion, source⟩ := by
  obtain ⟨last, hlast, hexit⟩ := exists_last cx hx
  rw [hlast]
  rcases upgradeTurn_cases asked (S.version last) cx last with ⟨y, hne, hs, -, -, hb⟩ |
    ⟨l', hv, hs, hb⟩ | ⟨toVersion, source, hne, hs, hmem, hlt, hb⟩ | ⟨m, hb⟩ <;>
      rw [hb] at hexit
  · cases hexit
  · rw [← Option.some.inj hexit]
    simp only [reduceCtorEq, false_iff]
    rintro ⟨y, _, _, hy, hne, -⟩; cases hy; exact hne hv
  · rw [← Option.some.inj hexit]
    constructor
    · intro h; cases h; exact ⟨last, toVersion, source, rfl, hne, hs, ⟨hmem, hlt⟩, rfl⟩
    · rintro ⟨y, _, _, hy, -, hs', -, rfl⟩
      cases hy; rw [hs] at hs'; cases hs'; rfl
  · rw [← Option.some.inj hexit]
    simp only [reduceCtorEq, false_iff]
    rintro ⟨y, toVersion, source, hy, hne, hs, ⟨hmem, hlt⟩, -⟩
    cases hy
    simp [upgradeTurn, hne, hs, S.assertForward_ok hmem hlt] at hb

end StepCalls

/-- **Every call but the last may return `Next`.** -/
theorem nextSteps_lt {last : S.Value} (hlast : (S.stepCalls x asked cx).getLast? = some last)
    (hnext : (S.step last cx).isNext = false) :
    S.nextSteps x asked cx < (S.stepCalls x asked cx).length := by
  obtain ⟨ys, hys⟩ := List.getLast?_eq_some_iff.1 hlast
  have hle : ys.countP (fun y => (S.step y cx).isNext) ≤ ys.length := List.countP_le_length
  unfold nextSteps
  rw [hys, List.countP_append, List.length_append]
  simpa [hnext] using Nat.lt_succ_of_le hle

/-- A conversion failure names the version asked for. -/
theorem upgrade_err_original {e : ConversionFailed} (h : S.upgrade x asked cx = .err e) :
    e.original = asked := by
  by_cases hx : S.version x = asked
  · obtain ⟨last, toVersion, source, -, -, -, -, rfl⟩ := (upgrade_err_iff cx hx).1 h
    rfl
  · obtain ⟨m, hm⟩ := upgrade_of_ne cx hx
    rw [hm] at h
    cases h

/-- A conversion failure names a step forward, at or above the version asked for. -/
theorem upgrade_err_ordered (cx : S.Context) (hx : S.version x = asked) {e : ConversionFailed}
    (h : S.upgrade x asked cx = .err e) :
    e.original ≤ e.fromVersion ∧ e.fromVersion < e.toVersion ∧ e.toVersion ≤ S.newest := by
  obtain ⟨last, toVersion, source, hlast, -, -, hforward, rfl⟩ := (upgrade_err_iff cx hx).1 h
  refine ⟨?_, hforward.2, S.le_newest hforward.1⟩
  have hmem : S.version last ∈ (S.stepCalls x asked cx).map S.version :=
    List.mem_map_of_mem (List.mem_of_getLast? hlast)
  exact stepCalls_ge cx hx _ hmem

/-- What is upgraded has the version asked for. -/
theorem version_of_upgrade_ok {l : S.Latest} (h : S.upgrade x asked cx = .ok l) :
    S.version x = asked := by
  by_contra hx
  obtain ⟨m, hm⟩ := upgrade_of_ne cx hx
  rw [hm] at h
  cases h

/-- **At the newest version there is one call**, and it is done. -/
theorem stepCalls_newest {l : S.Latest} (h : S.upgrade x S.newest cx = .ok l) :
    S.stepCalls x S.newest cx = [x] ∧ S.step x cx = .done l := by
  have hx := version_of_upgrade_ok h
  have hhead := stepCalls_head cx hx
  have hasc := stepCalls_ascending cx hx
  have hmem := stepCalls_mem cx hx S.newest_mem
  obtain ⟨last, hlast, -, hdone⟩ := (upgrade_ok_iff cx hx).1 h
  cases hcalls : S.stepCalls x S.newest cx with
  | nil => rw [hcalls] at hhead; cases hhead
  | cons y ys =>
    rw [hcalls] at hhead hasc hmem hlast
    cases hhead
    cases ys with
    | nil =>
      cases hlast
      exact ⟨rfl, hdone⟩
    | cons z zs =>
      -- a second value would be newer than the newest
      have hlt : S.version x < S.version z :=
        (List.pairwise_cons.1 hasc).1 _ (List.mem_cons_self ..)
      have hle := S.le_newest (hmem z (List.mem_cons_of_mem _ (List.mem_cons_self ..)))
      rw [hx] at hlt
      exact absurd hlt (not_lt.2 hle)

/-- **Below the newest version at least one call is `Next`.** -/
theorem one_le_nextSteps {l : S.Latest} (hasked : asked ≠ S.newest)
    (h : S.upgrade x asked cx = .ok l) : 1 ≤ S.nextSteps x asked cx := by
  have hx := version_of_upgrade_ok h
  have hhead := stepCalls_head cx hx
  have hchain := stepCalls_isChain cx hx
  obtain ⟨last, hlast, hnewest, -⟩ := (upgrade_ok_iff cx hx).1 h
  unfold nextSteps
  cases hcalls : S.stepCalls x asked cx with
  | nil => rw [hcalls] at hhead; cases hhead
  | cons y ys =>
    rw [hcalls] at hhead hchain hlast
    cases hhead
    cases ys with
    | nil =>
      cases hlast
      exact absurd (hx.symm.trans hnewest) hasked
    | cons z zs =>
      have hstep : S.step x cx = .next z := (List.isChain_cons_cons.1 hchain).1.1
      rw [List.countP_cons, hstep]
      simp [Step.isNext]

/-- Three versions, the values of which are their own versions. -/
def stairs : VersionSet (SerdeJson.reference fun _ => true) where
  Value := UInt32
  Latest := UInt32
  Context := Unit
  typeName := "Stairs"
  VERSIONS := [1, 2, 4]
  parse _ := (Versioned.counter 0).seed
  version x := x
  step x _ := if x = 4 then .done x else .next (2 * x)
  wellFormed := rfl

/-- **The run of the upgrade loop**, for any `step`: it ends, within as many calls of `step` as
    there are listed versions from the one asked for; a value of another version panics before
    any step; the versions stepped go up from the one asked for through listed ones; and the
    result is the value at the end of a legal chain, or the failure at its end, or a panic. -/
theorem upgrade_run (x : S.Value) (asked : UInt32) (hasked : asked ∈ S.VERSIONS)
    (cx : S.Context) :
    S.upgrade x asked cx ≠ .hang ∧
    (S.stepCalls x asked cx).length ≤ S.VERSIONS.countP (asked ≤ ·) ∧
    (S.version x ≠ asked →
      S.stepCalls x asked cx = [] ∧ ∃ m, S.upgrade x asked cx = .panics m) ∧
    (S.version x = asked →
      ((S.stepCalls x asked cx).map S.version).head? = some asked ∧
      (∀ v ∈ (S.stepCalls x asked cx).map S.version, v ∈ S.VERSIONS) ∧
      Ascending ((S.stepCalls x asked cx).map S.version) ∧
      (∀ l, S.upgrade x asked cx = .ok l ↔ ∃ last,
        S.LegalChain cx (S.stepCalls x asked cx) last ∧ S.version last = S.newest ∧
        S.step last cx = .done l) ∧
      (∀ e, S.upgrade x asked cx = .err e ↔ ∃ last toVersion source,
        S.LegalChain cx (S.stepCalls x asked cx) last ∧ S.version last < S.newest ∧
        S.step last cx = .failed toVersion source ∧ S.Forward last toVersion ∧
        e = ⟨asked, S.version last, toVersion, source⟩) ∧
      (∀ e, S.upgrade x asked cx = .err e →
        e.original ≤ e.fromVersion ∧ e.fromVersion < e.toVersion ∧ e.toVersion ≤ S.newest) ∧
      ((∀ l, S.upgrade x asked cx ≠ .ok l) → (∀ e, S.upgrade x asked cx ≠ .err e) →
        ∃ m, S.upgrade x asked cx = .panics m)) := by
  have hend := upgrade_ne_hang x asked cx
  by_cases hx : S.version x = asked
  · have hchain := stepCalls_isChain cx hx
    refine ⟨hend, stepCalls_length_le cx hx hasked, fun h => absurd hx h, fun _ =>
      ⟨?_, ?_, stepCalls_ascending cx hx, fun l => ?_, fun e => ?_,
        fun e => upgrade_err_ordered cx hx, fun hok herr => ?_⟩⟩
    · rw [List.head?_map, stepCalls_head cx hx, Option.map_some, hx]
    · intro v hv
      obtain ⟨y, hy, rfl⟩ := List.mem_map.1 hv
      exact stepCalls_mem cx hx hasked y hy
    · rw [upgrade_ok_iff cx hx]
      simp only [LegalChain, hchain, true_and]
    · rw [upgrade_err_iff cx hx]
      simp only [LegalChain, hchain, true_and]
      refine exists_congr fun last => exists_congr fun toVersion => exists_congr fun source =>
        and_congr_right fun hlast => and_congr_left fun _ => ?_
      have hle := S.le_newest (stepCalls_mem cx hx hasked _ (List.mem_of_getLast? hlast))
      exact ⟨hle.lt_of_ne, ne_of_lt⟩
    · cases hu : S.upgrade x asked cx with
      | ok l => exact absurd hu (hok l)
      | err e => exact absurd hu (herr e)
      | panics m => exact ⟨m, rfl⟩
      | hang => exact absurd hu hend
  · have hnil : S.stepCalls x asked cx = [] := if_pos hx
    exact ⟨hend, by simp [hnil], fun _ => ⟨hnil, upgrade_of_ne cx hx⟩, fun h => absurd h hx⟩

theorem upgrade_run_stairs :
    stairs.upgrade (1 : UInt32) 1 () ≠ .hang ∧ (stairs.stepCalls (1 : UInt32) 1 ()).length ≤ 3 := by
  have h := stairs.upgrade_run (1 : UInt32) 1 (List.mem_cons_self ..) ()
  exact ⟨h.1, h.2.1⟩

example : stairs.stepCalls (1 : UInt32) 1 () = [(1 : UInt32), (2 : UInt32), (4 : UInt32)] := rfl

/-! ## The contract -/

/-- What `upgrade` makes of a climb of the conversion ladder. -/
def conclude (S : VersionSet J) (asked : UInt32) :
    Except (S.Value × UInt32 × DynError) S.Latest → Exec ConversionFailed S.Latest
  | .ok l => .ok l
  | .error (y, toVersion, source) => .err ⟨asked, S.version y, toVersion, source⟩

theorem rung_eq_next {y : S.Value} : S.rung cx x = .next y ↔ S.step x cx = .next y := by
  unfold rung; cases S.step x cx <;> simp

theorem rung_eq_top {l : S.Latest} : S.rung cx x = .top l ↔ S.step x cx = .done l := by
  unfold rung; cases S.step x cx <;> simp

theorem rung_eq_broken {toVersion : UInt32} {source : DynError} :
    S.rung cx x = .broken (toVersion, source) ↔ S.step x cx = .failed toVersion source := by
  unfold rung; cases S.step x cx <;> simp

/-- **A `step` that keeps its contract climbs to an outcome** from every listed version. -/
theorem StepContract.exists_climbs (h : S.StepContract) (cx : S.Context)
    (hx : S.version x ∈ S.VERSIONS) : ∃ r, Climbs (S.rung cx) x r := by
  refine Ladder.exists_climbs (I := fun y => S.version y ∈ S.VERSIONS)
    (μ := fun y => above S.VERSIONS (S.version y)) (fun y z hy hz => ?_) hx
  obtain ⟨hmem, hlt⟩ := h.next hy (rung_eq_next.1 hz)
  exact ⟨hmem, above_lt hlt hmem⟩

theorem stepContract_iff :
    S.StepContract ↔ ∀ cx x, S.version x ∈ S.VERSIONS → S.StepLegal cx x := by
  unfold StepLegal
  constructor
  · intro h cx x hx
    cases hs : S.step x cx with
    | next y => exact h.next hx hs
    | done l => exact h.done hx hs
    | failed toVersion source => exact h.failed hx hs
  · intro h
    refine ⟨fun {x y cx} hx hs => ?_, fun {x cx toVersion source} hx hs => ?_,
      fun {x cx l} hx hs => ?_⟩
    · simpa only [hs] using h cx x hx
    · simpa only [hs] using h cx x hx
    · simpa only [hs] using h cx x hx

theorem StepContract.loop_of_climbs (h : S.StepContract)
    {r : Except (S.Value × UInt32 × DynError) S.Latest} (hr : Climbs (S.rung cx) x r) :
    ∀ {n : Nat}, S.version x ∈ S.VERSIONS → above S.VERSIONS (S.version x) < n →
      Exec.loop (S.upgradeTurn asked S.newest cx) n (x, S.version x) = S.conclude asked r := by
  induction hr with
  | @top y l hl =>
    intro n hy hn
    obtain ⟨n, rfl⟩ : ∃ m, n = m + 1 := ⟨n - 1, by omega⟩
    have hs := rung_eq_top.1 hl
    apply Exec.loop_done
    simp [upgradeTurn, h.done hy hs, hs]
  | @broken y f hf =>
    intro n hy hn
    obtain ⟨n, rfl⟩ : ∃ m, n = m + 1 := ⟨n - 1, by omega⟩
    have hs := rung_eq_broken.1 hf
    have hforward := h.failed hy hs
    apply Exec.loop_err
    simp [upgradeTurn, hforward.ne_newest, hs,
      S.assertForward_ok hforward.1 hforward.2]
  | @next y z r hz _ ih =>
    intro n hy hn
    obtain ⟨n, rfl⟩ : ∃ m, n = m + 1 := ⟨n - 1, by omega⟩
    have hs := rung_eq_next.1 hz
    have hforward := h.next hy hs
    have hbody : S.upgradeTurn asked S.newest cx (y, S.version y) =
        .ok (.next (z, S.version z)) := by
      simp [upgradeTurn, hforward.ne_newest, hs,
        S.assertForward_ok hforward.1 hforward.2]
    rw [Exec.loop_next hbody]
    exact ih hforward.1 (by have := above_lt hforward.2 hforward.1; omega)

/-- **The loop computes the climb.** -/
theorem StepContract.upgrade_eq_of_climbs (h : S.StepContract) (hx : S.version x = asked)
    (hasked : asked ∈ S.VERSIONS) {r : Except (S.Value × UInt32 × DynError) S.Latest}
    (hr : Climbs (S.rung cx) x r) : S.upgrade x asked cx = S.conclude asked r := by
  rw [upgrade_of_eq hx]
  subst hx
  exact h.loop_of_climbs hr hasked (Nat.lt_succ_of_le (above_le_length _ _))

/-- A `step` that keeps its contract never makes the loop panic. -/
theorem StepContract.upgrade_settles (h : S.StepContract) (cx : S.Context)
    (hx : S.version x = asked) (hasked : asked ∈ S.VERSIONS) : (S.upgrade x asked cx).Settles := by
  obtain ⟨r, hr⟩ := h.exists_climbs cx (x := x) (hx ▸ hasked)
  rw [h.upgrade_eq_of_climbs hx hasked hr]
  cases r <;> trivial

end VersionSet

end VersionedEnvelope
