import VersionedEnvelope.Upgrade

/-!
# Declared version sets

The macro `version_set!`: a list of variants, each with its payload type and its step; the
implementation of `VersionSet` that the macro generates; and the checks it makes at compile time.

* `parse_versionOf` — the generated chain of comparisons finds the variant of every listed
  version.
* `constBlock_eq_ok` — a declaration compiles when every check passes.
* `check_eq_ok_iff_stepLegal` — the check of a variant passes when its step is legal.
* `Accepted.stepContract` — the generated `step` of an accepted declaration keeps its contract.
* `checks_iff_no_panic` — the checks pass exactly when the upgrade loop panics on no value.
-/

set_option autoImplicit false

namespace VersionedEnvelope

open Json Ladder

/-! ## Declarations -/

/-- What follows the payload type of a variant: `=> Target`, `=> try Target`, or nothing.  Each
    comes with the `Into` or `TryInto` that the generated `step` calls. -/
inductive Kind {Variant : Type} (Carrier : Variant → Type) (Latest : Type) (var : Variant) where
  | next (target : Variant) (into : Carrier var → Carrier target)
  | tryNext (target : Variant) (tryInto : Carrier var → Except DynError (Carrier target))
  | done (into : Carrier var → Latest)

/-- `version_set! { enum name -> Latest { var(payload) kind, .. } }`. -/
structure Declaration (J : SerdeJson) where
  name : String
  Variant : Type
  /-- The variants in the order declared. -/
  variants : List Variant
  mem_variants : ∀ var, var ∈ variants
  /-- `stringify!` on the name of a variant. -/
  stringify : Variant → String
  payload : Variant → Versioned J
  Latest : Type
  kind : ∀ var, Kind (fun var => (payload var).Carrier) Latest var

namespace Declaration

variable {J : SerdeJson} (D : Declaration J)

/-- The enum. -/
abbrev Value : Type := (var : D.Variant) × (D.payload var).Carrier

/-- `const $var: u32`. -/
def versionOf (var : D.Variant) : UInt32 := (D.payload var).VERSION

/-! ## What the macro generates -/

def VERSIONS : List UInt32 := D.variants.map D.versionOf

/-- The comparisons of the generated `parse`, from the variants that are left. -/
def parseIn (version : UInt32) : List D.Variant → J.Seed D.Value
  | [], _ => .panics (s!"internal error: entered unreachable code: version {version} is not in " ++
      "VERSIONS")
  | var :: vars, de =>
    if version = D.versionOf var then
      (fun (payload, de) => (⟨var, payload⟩, de)) <$> (D.payload var).seed de
    else parseIn version vars de

def parse (version : UInt32) : J.Seed D.Value := D.parseIn version D.variants

def version (x : D.Value) : UInt32 := D.versionOf x.1

def step (x : D.Value) (_cx : Unit) : Step D.Value D.Latest :=
  match D.kind x.1 with
  | .next target into => .next ⟨target, into x.2⟩
  | .tryNext target tryInto =>
    match tryInto x.2 with
    | .ok next => .next ⟨target, next⟩
    | .error error => .failed (D.versionOf target) error
  | .done into => .done (into x.2)

/-- The generated implementation, when its `VERSIONS` pass the check. -/
def versionSet (h : assertVersionSetWellFormed D.VERSIONS = .ok ()) : VersionSet J where
  Value := D.Value
  Latest := D.Latest
  Context := Unit
  typeName := D.name
  VERSIONS := D.VERSIONS
  parse := D.parse
  version := D.version
  step := D.step
  wellFormed := h

/-- `@check_forward`. -/
def checkForward (var target : D.Variant) : Exec Empty Unit :=
  if D.versionOf var < D.versionOf target then .ok ()
  else .panics (s!"in `version_set!`, `{D.name}::{D.stringify var} => {D.stringify target}` " ++
    "does not go to a newer version: a step must name a variant listed after it")

/-- `@check`. -/
def check (var : D.Variant) : Exec Empty Unit :=
  match D.kind var with
  | .next target _ => D.checkForward var target
  | .tryNext target _ => D.checkForward var target
  | .done _ => do
    let last ← Exec.expect D.VERSIONS[D.VERSIONS.length - 1]? "index out of bounds"
    if D.versionOf var = last then .ok ()
    else .panics (s!"in `version_set!`, `{D.name}::{D.stringify var}` has no step, but only the " ++
      "newest variant may end the upgrade: add `=> Newer` to name the variant it converts to")

/-- The generated `const` block, which is evaluated at compile time. -/
def constBlock : Exec Empty Unit := do
  assertVersionSetWellFormed D.VERSIONS
  D.variants.forM D.check

/-- The declaration compiles. -/
structure Accepted : Prop where
  wellFormed : assertVersionSetWellFormed D.VERSIONS = .ok ()
  checked : ∀ var, D.check var = .ok ()

/-- The generated implementation of a declaration that compiles. -/
abbrev Accepted.versionSet {D : Declaration J} (h : D.Accepted) : VersionSet J :=
  D.versionSet h.wellFormed

instance (h : assertVersionSetWellFormed D.VERSIONS = .ok ()) :
    Unique (D.versionSet h).Context := inferInstanceAs (Unique Unit)

/-- The conversion declared for a value: to its target, or into `Latest`. -/
def conversion (x : D.Value) : Rung D.Value D.Latest (UInt32 × DynError) :=
  match D.kind x.1 with
  | .next target into => .next ⟨target, into x.2⟩
  | .tryNext target tryInto =>
    match tryInto x.2 with
    | .ok y => .next ⟨target, y⟩
    | .error source => .broken (D.versionOf target, source)
  | .done into => .top (into x.2)

/-! ## The generated `parse` -/

/-- The comparisons stop at the first variant of the version. -/
theorem exists_parseIn {v : UInt32} : ∀ {vars : List D.Variant}, v ∈ vars.map D.versionOf →
    ∃ var, D.versionOf var = v ∧ ∀ de, D.parseIn v vars de =
      (fun (payload, de) => (⟨var, payload⟩, de)) <$> (D.payload var).seed de := by
  intro vars
  induction vars with
  | nil =>
    intro h
    cases h
  | cons var vars ih =>
    intro h
    by_cases hv : v = D.versionOf var
    · exact ⟨var, hv.symm, fun de => by rw [parseIn, if_pos hv]⟩
    · obtain ⟨var', hvar', hparse⟩ := ih (List.mem_of_ne_of_mem hv h)
      exact ⟨var', hvar', fun de => by rw [parseIn, if_neg hv, hparse]⟩

/-- **For a listed version the generated `parse` is the deserializer of a variant of it.** -/
theorem exists_parse {v : UInt32} (h : v ∈ D.VERSIONS) :
    ∃ var, D.versionOf var = v ∧ ∀ de, D.parse v de =
      (fun (payload, de) => (⟨var, payload⟩, de)) <$> (D.payload var).seed de :=
  D.exists_parseIn h

theorem versionOf_mem (var : D.Variant) : D.versionOf var ∈ D.VERSIONS :=
  List.mem_map_of_mem (D.mem_variants var)

theorem version_mem (x : D.Value) : D.version x ∈ D.VERSIONS := D.versionOf_mem x.1

variable {D}

/-- Where the versions ascend, no two variants share one. -/
theorem versionOf_injective (h : assertVersionSetWellFormed D.VERSIONS = .ok ())
    {var var' : D.Variant} (heq : D.versionOf var = D.versionOf var') : var = var' :=
  List.inj_on_of_nodup_map (assertVersionSetWellFormed_iff.1 h).2.nodup (D.mem_variants var)
    (D.mem_variants var') heq

/-- **The generated `parse` finds the variant of every listed version.** -/
theorem parse_versionOf (h : assertVersionSetWellFormed D.VERSIONS = .ok ()) (var : D.Variant)
    (de : Cursor) : D.parse (D.versionOf var) de =
      (fun (payload, de) => (⟨var, payload⟩, de)) <$> (D.payload var).seed de := by
  obtain ⟨var', hvar', hparse⟩ := D.exists_parse (D.versionOf_mem var)
  obtain rfl := versionOf_injective h hvar'
  exact hparse de

/-- What the generated `parse` returns has the version asked for. -/
theorem parse_eq_ok {v : UInt32} (hv : v ∈ D.VERSIONS) {c c' : Cursor} {x : D.Value}
    (h : D.parse v c = .ok (x, c')) :
    D.version x = v ∧ (D.payload x.1).deserialize.deserialize c = .ok (x.2, c') := by
  obtain ⟨var, rfl, hparse⟩ := D.exists_parse hv
  rw [hparse] at h
  cases hd : (D.payload var).deserialize.deserialize c with
  | error e => simp [Versioned.seed, hd] at h
  | ok y =>
    simp only [Versioned.seed, hd, Exec.lift_ok, Exec.map_ok, Exec.ok.injEq, Prod.mk.injEq] at h
    obtain ⟨rfl, rfl⟩ := h
    exact ⟨rfl, hd⟩

theorem parse_settles {v : UInt32} (hv : v ∈ D.VERSIONS) (c : Cursor) : (D.parse v c).Settles := by
  obtain ⟨var, -, hparse⟩ := D.exists_parse hv
  rw [hparse, Versioned.seed]
  cases (D.payload var).deserialize.deserialize c <;> trivial

theorem versionSet_parseContract (h : assertVersionSetWellFormed D.VERSIONS = .ok ()) :
    (D.versionSet h).ParseContract where
  settles hv _ := parse_settles hv _
  oneValue {_ _ _ _ _ x} hv hj hp := (D.payload x.1).deserialize.oneValue hj (parse_eq_ok hv hp).2
  version hv _ hp := (parse_eq_ok hv hp).1

/-- Every payload type deserializes a text alike, wherever it stands. -/
def SameText (D : Declaration J) : Prop := ∀ var, (D.payload var).deserialize.SameText

theorem SameText.versionSet (hsame : D.SameText)
    (h : assertVersionSetWellFormed D.VERSIONS = .ok ()) : (D.versionSet h).SameText := by
  intro v c c' d t x hv hc hc' hp
  have hp : D.parse v c = .ok (x, d) := hp
  obtain ⟨var, -, hparse⟩ := D.exists_parse hv
  rw [hparse] at hp
  cases hs : (D.payload var).seed c with
  | ok y =>
    rw [hs] at hp
    cases hp
    obtain ⟨d', hd'⟩ := Versioned.seed_sameText (hsame var) hc hc' hs
    refine ⟨d', (hparse c').trans ?_⟩
    rw [hd', Exec.map_ok]
    rfl
  | err e => rw [hs] at hp; cases hp
  | panics m => rw [hs] at hp; cases hp
  | hang => rw [hs] at hp; cases hp

/-! ## The checks -/

theorem forM_eq_ok {α : Type} {f : α → Exec Empty Unit} {l : List α} :
    l.forM f = .ok () ↔ ∀ x ∈ l, f x = .ok () := by
  induction l with
  | nil => simp [List.forM]
  | cons x l ih =>
    rw [List.forall_mem_cons, ← ih]
    change (f x >>= fun _ => l.forM f) = .ok () ↔ _
    cases f x <;> simp

/-- **A declaration compiles exactly when its `const` block evaluates.** -/
theorem constBlock_eq_ok : D.constBlock = .ok () ↔ D.Accepted := by
  unfold constBlock
  rw [Exec.bind_eq_ok]
  constructor
  · rintro ⟨⟨⟩, hwell, hall⟩
    exact ⟨hwell, fun var => forM_eq_ok.1 hall var (D.mem_variants var)⟩
  · rintro ⟨hwell, hall⟩
    exact ⟨(), hwell, forM_eq_ok.2 fun var _ => hall var⟩

variable {h : assertVersionSetWellFormed D.VERSIONS = .ok ()} {var : D.Variant}

theorem checkForward_eq_ok {target : D.Variant} :
    D.checkForward var target = .ok () ↔ D.versionOf var < D.versionOf target := by
  unfold checkForward
  split <;> simp_all

theorem last_eq_newest (h : assertVersionSetWellFormed D.VERSIONS = .ok ()) :
    D.VERSIONS[D.VERSIONS.length - 1]? = some (D.versionSet h).newest := by
  rw [← List.getLast?_eq_getElem?]
  exact List.getLast?_eq_some_getLast (D.versionSet h).versions_ne_nil

/-- A variant that steps goes to a newer version, and one that does not is the newest. -/
theorem check_eq_ok (h : assertVersionSetWellFormed D.VERSIONS = .ok ()) :
    D.check var = .ok () ↔ match D.kind var with
      | .next target _ => D.versionOf var < D.versionOf target
      | .tryNext target _ => D.versionOf var < D.versionOf target
      | .done _ => D.versionOf var = (D.versionSet h).newest := by
  unfold check
  split
  · exact checkForward_eq_ok
  · exact checkForward_eq_ok
  · rw [last_eq_newest h, Exec.expect_some, Exec.ok_bind]
    split <;> simp_all

/-- Where a step goes. -/
theorem step_cases (x : D.Value) :
    (∃ target into, D.kind x.1 = .next target into ∧ D.step x () = .next ⟨target, into x.2⟩) ∨
    (∃ target tryInto, D.kind x.1 = .tryNext target tryInto ∧
      ((∃ y, D.step x () = .next ⟨target, y⟩) ∨
        ∃ source, D.step x () = .failed (D.versionOf target) source)) ∨
    (∃ into, D.kind x.1 = .done into ∧ D.step x () = .done (into x.2)) := by
  unfold step
  cases hk : D.kind x.1 with
  | next target into => exact .inl ⟨target, into, rfl, rfl⟩
  | tryNext target tryInto =>
    refine .inr (.inl ⟨target, tryInto, rfl, ?_⟩)
    simp only
    cases tryInto x.2 with
    | ok y => exact .inl ⟨y, rfl⟩
    | error source => exact .inr ⟨source, rfl⟩
  | done into => exact .inr (.inr ⟨into, rfl, rfl⟩)

/-- **The check of a variant passes exactly when its step is legal**, on any of its values. -/
theorem check_eq_ok_iff_stepLegal (h : assertVersionSetWellFormed D.VERSIONS = .ok ())
    (x : D.Value) : D.check x.1 = .ok () ↔ (D.versionSet h).StepLegal () x := by
  have hstep : (D.versionSet h).step x () = D.step x () := rfl
  have hforward : ∀ target, (D.versionSet h).Forward x (D.versionOf target) ↔
      D.versionOf x.1 < D.versionOf target := fun target =>
    and_iff_right (D.versionOf_mem target)
  unfold VersionSet.StepLegal
  rw [check_eq_ok h, hstep]
  rcases step_cases x with ⟨target, into, hk, hs⟩ | ⟨target, tryInto, hk, ⟨y, hs⟩ | ⟨source, hs⟩⟩ |
    ⟨into, hk, hs⟩
  · rw [hk, hs]; exact (hforward target).symm
  · rw [hk, hs]; exact (hforward target).symm
  · rw [hk, hs]; exact (hforward target).symm
  · rw [hk, hs]; exact Iff.rfl

/-- **The generated `step` of an accepted declaration keeps its contract.** -/
theorem Accepted.stepContract (hD : D.Accepted) : hD.versionSet.StepContract :=
  VersionSet.stepContract_iff.2 fun () x _ =>
    (check_eq_ok_iff_stepLegal hD.wellFormed x).1 (hD.checked x.1)

/-- The ladder that `step` describes is the one declared. -/
theorem rung_eq (h : assertVersionSetWellFormed D.VERSIONS = .ok ()) :
    (D.versionSet h).rung () = D.conversion := by
  funext x
  have hstep : (D.versionSet h).step x () = D.step x () := rfl
  unfold VersionSet.rung
  rw [hstep]
  unfold step conversion
  cases D.kind x.1 with
  | next target into => rfl
  | tryNext target tryInto =>
    simp only
    cases tryInto x.2 <;> rfl
  | done into => rfl

/-! ## The checks and the loop -/

/-- A variant whose check fails has no value that can be upgraded. -/
theorem upgrade_panics (h : assertVersionSetWellFormed D.VERSIONS = .ok ()) {x : D.Value}
    (hx : D.check x.1 ≠ .ok ()) :
    ∃ m, (D.versionSet h).upgrade x (D.version x) () = .panics m := by
  obtain ⟨m, hm⟩ := (VersionSet.upgradeTurn_panics_iff (D.version x)).2
    (mt (check_eq_ok_iff_stepLegal h x).2 hx)
  have hloop : (D.versionSet h).upgrade x (D.version x) () = _ := VersionSet.upgrade_of_eq rfl
  exact ⟨m, hloop.trans (Exec.loop_panics hm)⟩

theorem newest_eq_iff (h : assertVersionSetWellFormed D.VERSIONS = .ok ()) {var : D.Variant} :
    D.versionOf var = (D.versionSet h).newest ↔ D.variants.getLast? = some var := by
  have hlast : D.variants.getLast?.map D.versionOf = some (D.versionSet h).newest := by
    rw [← List.getLast?_map]
    exact List.getLast?_eq_some_getLast (D.versionSet h).versions_ne_nil
  constructor
  · intro hvar
    obtain ⟨var', hvar', heq⟩ := Option.map_eq_some_iff.1 hlast
    rw [hvar', versionOf_injective h (heq.trans hvar.symm)]
  · intro hvar
    rw [hvar] at hlast
    exact Option.some.inj hlast

/-- A run of the loop ends with the newest variant's `Done` value or with a `Failed` step. -/
theorem Accepted.upgrade_ends (hD : D.Accepted) (x : D.Value) :
    ∃ last, (hD.versionSet.stepCalls x (D.version x) ()).getLast? = some last ∧
      ((∃ l, D.variants.getLast? = some last.1 ∧ D.step last () = .done l ∧
        hD.versionSet.upgrade x (D.version x) () = .ok l) ∨
       (∃ toVersion source, D.step last () = .failed toVersion source ∧
        hD.versionSet.upgrade x (D.version x) () =
          .err ⟨D.version x, D.version last, toVersion, source⟩)) := by
  have hmem : hD.versionSet.version x ∈ hD.versionSet.VERSIONS := D.version_mem x
  obtain ⟨r, hr⟩ := hD.stepContract.exists_climbs () hmem
  have hup := hD.stepContract.upgrade_eq_of_climbs rfl hmem hr
  cases r with
  | ok l =>
    obtain ⟨last, hlast, hv, hs⟩ := (VersionSet.upgrade_ok_iff () rfl).1 hup
    exact ⟨last, hlast, .inl ⟨l, (newest_eq_iff hD.wellFormed).1 hv, hs, hup⟩⟩
  | error f =>
    obtain ⟨last, toVersion, source, hlast, -, hs, -, heq⟩ :=
      (VersionSet.upgrade_err_iff () rfl).1 hup
    exact ⟨last, hlast, .inr ⟨toVersion, source, hs, hup.trans (congrArg _ heq)⟩⟩

/-- From the `i`-th variant there are at most as many `Next` steps as variants after it. -/
theorem Accepted.nextSteps_le (hD : D.Accepted) {i : Nat} (hi : i < D.variants.length)
    {x : D.Value} (hx : x.1 = D.variants[i]) :
    hD.versionSet.nextSteps x (D.version x) () ≤ D.variants.length - 1 - i := by
  obtain ⟨last, hlast, hend⟩ := hD.upgrade_ends x
  have hnext : (D.step last ()).isNext = false := by
    rcases hend with ⟨l, -, hs, -⟩ | ⟨toVersion, source, hs, -⟩ <;> rw [hs] <;> rfl
  have hlt := VersionSet.nextSteps_lt hlast hnext
  have hcalls : (hD.versionSet.stepCalls x (D.version x) ()).length ≤
      D.VERSIONS.countP (D.version x ≤ ·) :=
    VersionSet.stepCalls_length_le (S := hD.versionSet) () rfl (D.version_mem x)
  have hi' : i < D.VERSIONS.length := by simpa [VERSIONS] using hi
  have hversion : D.version x = D.VERSIONS[i] := by
    simp only [VERSIONS, List.getElem_map, version, hx]
  have hasc : Ascending D.VERSIONS := hD.versionSet.ascending
  have habove := hasc.countP_getElem_le hi'
  have hlen : D.VERSIONS.length = D.variants.length := List.length_map _
  rw [hversion] at hcalls hlt ⊢
  omega

/-- The variants of `counters`. -/
inductive CounterVariant where
  | V1
  | V3
  | V4
  deriving DecidableEq

/-- A version skipped, a conversion that may fail, and a newest version. -/
def counters : Declaration (SerdeJson.reference fun _ => true) where
  name := "Counter"
  Variant := CounterVariant
  variants := [.V1, .V3, .V4]
  mem_variants var := by cases var <;> decide
  stringify
    | .V1 => "V1"
    | .V3 => "V3"
    | .V4 => "V4"
  payload
    | .V1 => .counter 1
    | .V3 => .counter 3
    | .V4 => .counter 4
  Latest := UInt32
  kind
    | .V1 => .next .V3 fun n : UInt32 => n + 1
    | .V3 => .tryNext .V4 fun n : UInt32 =>
      if n < 100 then .ok (n + 1) else .error (.mk "out of range" none)
    | .V4 => .done fun n : UInt32 => n

theorem counters_sameText : counters.SameText := fun var => by
  cases var <;> exact Deserialize.reference_sameText versionNumber

theorem counters_accepted : counters.Accepted where
  wellFormed := rfl
  checked var := by cases var <;> rfl

/-- **The compile-time checks and the loop.**  The checks pass exactly when the loop panics on no
    value; and then `parse` never reaches its `unreachable!` and keeps to the version asked for,
    and a run ends with the newest variant's `Done` value or a `Failed` step, after at most as
    many `Next` steps as there are variants to come. -/
theorem checks_iff_no_panic (h : assertVersionSetWellFormed D.VERSIONS = .ok ())
    (hinhabited : ∀ var, Nonempty (D.payload var).Carrier) :
    ((∀ var, D.check var = .ok ()) ↔
      ∀ (x : D.Value) (m : String), (D.versionSet h).upgrade x (D.version x) () ≠ .panics m) ∧
    ((∀ var, D.check var = .ok ()) →
      (∀ v ∈ D.VERSIONS, ∀ c, (∀ m, D.parse v c ≠ .panics m) ∧
        ∀ x c', D.parse v c = .ok (x, c') → D.version x = v) ∧
      (∀ x : D.Value, ∃ last,
        ((D.versionSet h).stepCalls x (D.version x) ()).getLast? = some last ∧
        ((∃ l, D.variants.getLast? = some last.1 ∧ D.step last () = .done l ∧
          (D.versionSet h).upgrade x (D.version x) () = .ok l) ∨
         (∃ toVersion source, D.step last () = .failed toVersion source ∧
          (D.versionSet h).upgrade x (D.version x) () =
            .err ⟨D.version x, D.version last, toVersion, source⟩))) ∧
      (∀ (i : Nat) (hi : i < D.variants.length) (x : D.Value), x.1 = D.variants[i] →
        (D.versionSet h).nextSteps x (D.version x) () ≤ D.variants.length - 1 - i)) := by
  refine ⟨⟨fun hall x m hm => ?_, fun hrun var => ?_⟩, fun hall => ?_⟩
  · obtain ⟨last, -, ⟨l, -, -, hup⟩ | ⟨_, _, -, hup⟩⟩ := Accepted.upgrade_ends ⟨h, hall⟩ x
    · rw [hup] at hm; cases hm
    · rw [hup] at hm; cases hm
  · by_contra hcheck
    obtain ⟨payload⟩ := hinhabited var
    obtain ⟨m, hm⟩ := upgrade_panics h (x := ⟨var, payload⟩) hcheck
    exact hrun _ m hm
  · have hD : D.Accepted := ⟨h, hall⟩
    refine ⟨fun v hv c => ⟨fun m hm => ?_, fun x c' hp => (parse_eq_ok hv hp).1⟩,
      hD.upgrade_ends, fun i hi x hx => hD.nextSteps_le hi hx⟩
    have hsettles := parse_settles hv c
    rw [hm] at hsettles
    exact hsettles

theorem checks_iff_no_panic_counters : (∀ var, counters.check var = .ok ()) ∧
    ∀ (x : counters.Value) (m : String),
      (counters.versionSet rfl).upgrade x (counters.version x) () ≠ .panics m := by
  have hinhabited : ∀ var, Nonempty (counters.payload var).Carrier := fun var => by
    cases var <;> exact ⟨(0 : UInt32)⟩
  have hchecked := counters_accepted.checked
  exact ⟨hchecked, (checks_iff_no_panic (D := counters) rfl hinhabited).1.1 hchecked⟩

end Declaration

end VersionedEnvelope
