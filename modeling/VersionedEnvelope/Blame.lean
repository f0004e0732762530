import VersionedEnvelope.Untagged

/-!
# Whom a panic blames

The readers panic when the callbacks of a version set break its contract.  What they say then, for
callbacks that may do anything, but that `version` and `step` return.

* `StepFault` — each thing that `step` may not do, with the text of the panic.
* `upgradeTurn_eq_panics_iff` — a turn of the loop panics exactly with the fault of its step.
* `upgrade_panics_iff` — the loop panics exactly when the value has another version than was asked
  for, or the chain of legal steps ends with a fault.
* `InEnvelope`, `Bare` — the parses that the readers make of a document.
* `Blame` — all that a panic can be about, given the parses, and `readers_panics`: each reader
  panics exactly with that.
-/

set_option autoImplicit false

namespace VersionedEnvelope

open Json

namespace VersionSet

variable {J : SerdeJson} {S : VersionSet J} {cx : S.Context} {x : S.Value} {asked : UInt32}
  {m : String}

/-! ## Faults of `step` -/

/-- The version that a step names, and what the step is called. -/
def named (S : VersionSet J) : Step S.Value S.Latest → Option (String × UInt32)
  | .next y => some ("Next", S.version y)
  | .done _ => none
  | .failed toVersion _ => some ("Failed", toVersion)

/-- What `step` may not do with the value `x`, and what the loop says of it. -/
inductive StepFault (S : VersionSet J) (cx : S.Context) (x : S.Value) : String → Prop where
  | newest {returned : String} {toVersion : UInt32} (hx : S.version x = S.newest)
      (hs : S.named (S.step x cx) = some (returned, toVersion)) :
      StepFault S cx x (s!"{S.typeName}::step for version {S.version x}, the last version in " ++
        s!"VERSIONS, returned {returned} naming version {toVersion}")
  | done {l : S.Latest} (hx : S.version x ≠ S.newest) (hs : S.step x cx = .done l) :
      StepFault S cx x (s!"{S.typeName}::step for version {S.version x} returned Done, but the " ++
        s!"last version in VERSIONS is {S.newest}")
  | notListed {returned : String} {toVersion : UInt32} (hx : S.version x ≠ S.newest)
      (hs : S.named (S.step x cx) = some (returned, toVersion)) (hto : toVersion ∉ S.VERSIONS) :
      StepFault S cx x (s!"{S.typeName}::step for version {S.version x} returned {returned} " ++
        s!"naming version {toVersion}, but {toVersion} is not in VERSIONS")
  | notNewer {returned : String} {toVersion : UInt32} (hx : S.version x ≠ S.newest)
      (hs : S.named (S.step x cx) = some (returned, toVersion)) (hto : toVersion ∈ S.VERSIONS)
      (hle : toVersion ≤ S.version x) :
      StepFault S cx x (s!"{S.typeName}::step for version {S.version x} returned {returned} " ++
        s!"naming version {toVersion}, which is not newer")

/-- The check of a conversion passes, or panics with one of two texts. -/
theorem assertForward_eq {E : Type} (u w : UInt32) (returned : String) :
    (w ∈ S.VERSIONS ∧ u < w ∧ S.assertForward (E := E) u w returned = .ok ()) ∨
    (w ∉ S.VERSIONS ∧ S.assertForward (E := E) u w returned =
      .panics (s!"{S.typeName}::step for version {u} returned {returned} " ++
        s!"naming version {w}, but {w} is not in VERSIONS")) ∨
    (w ∈ S.VERSIONS ∧ w ≤ u ∧ S.assertForward (E := E) u w returned =
      .panics (s!"{S.typeName}::step for version {u} returned {returned} " ++
        s!"naming version {w}, which is not newer")) := by
  by_cases hmem : w ∈ S.VERSIONS
  · by_cases hle : w ≤ u
    · refine .inr (.inr ⟨hmem, hle, ?_⟩)
      rw [assertForward, if_neg (not_not.2 (S.isMember_iff.2 hmem)), if_pos hle]
      simp only [String.append_assoc, Exec.panics.injEq]
      rfl
    · exact .inl ⟨hmem, not_le.1 hle, S.assertForward_ok hmem (not_le.1 hle)⟩
  · refine .inr (.inl ⟨hmem, ?_⟩)
    rw [assertForward, if_pos (mt S.isMember_iff.1 hmem)]
    simp only [String.append_assoc, Exec.panics.injEq]
    rfl

theorem StepFault.not_legal (h : S.StepFault cx x m) : ¬ S.StepLegal cx x := by
  unfold StepLegal
  cases h with
  | newest hx hs =>
    cases hstep : S.step x cx with
    | next y => exact fun hforward => hforward.ne_newest hx
    | done l => rw [hstep] at hs; cases hs
    | failed toVersion source => exact fun hforward => hforward.ne_newest hx
  | done hx hs =>
    rw [hs]
    exact hx
  | notListed hx hs hto =>
    cases hstep : S.step x cx <;> rw [hstep] at hs <;> cases hs <;> exact fun hforward =>
      hto hforward.1
  | notNewer hx hs hto hle =>
    cases hstep : S.step x cx <;> rw [hstep] at hs <;> cases hs <;> exact fun hforward =>
      not_lt.2 hle hforward.2

/-- A step has one fault at most. -/
theorem StepFault.unique {m' : String} (h : S.StepFault cx x m) (h' : S.StepFault cx x m') :
    m = m' := by
  cases h with
  | newest hx hs =>
    cases h' with
    | newest _ hs' => cases hs.symm.trans hs'; rfl
    | done hx' _ => exact absurd hx hx'
    | notListed hx' _ _ => exact absurd hx hx'
    | notNewer hx' _ _ _ => exact absurd hx hx'
  | done hx hs =>
    cases h' with
    | newest hx' _ => exact absurd hx' hx
    | done _ _ => rfl
    | notListed _ hs' _ => rw [hs] at hs'; cases hs'
    | notNewer _ hs' _ _ => rw [hs] at hs'; cases hs'
  | notListed hx hs hto =>
    cases h' with
    | newest hx' _ => exact absurd hx' hx
    | done _ hs' => rw [hs'] at hs; cases hs
    | notListed _ hs' _ => cases hs.symm.trans hs'; rfl
    | notNewer _ hs' hto' _ => cases hs.symm.trans hs'; exact absurd hto' hto
  | notNewer hx hs hto hle =>
    cases h' with
    | newest hx' _ => exact absurd hx' hx
    | done _ hs' => rw [hs'] at hs; cases hs
    | notListed _ hs' hto' => cases hs.symm.trans hs'; exact absurd hto hto'
    | notNewer _ hs' _ _ => cases hs.symm.trans hs'; rfl

/-- The check of a conversion below the newest version panics with a fault of the step. -/
theorem stepFault_of_assertForward {E : Type} {returned : String} {toVersion : UInt32}
    (hx : S.version x ≠ S.newest)
    (hs : S.named (S.step x cx) = some (returned, toVersion))
    (hm : S.assertForward (E := E) (S.version x) toVersion returned = .panics m) :
    S.StepFault cx x m := by
  rcases assertForward_eq (S := S) (E := E) (S.version x) toVersion returned with
    ⟨-, -, heq⟩ | ⟨hto, heq⟩ | ⟨hto, hle, heq⟩
  · rw [heq] at hm
    cases hm
  · rw [heq] at hm
    cases hm
    exact .notListed hx hs hto
  · rw [heq] at hm
    cases hm
    exact .notNewer hx hs hto hle

theorem stepFault_of_upgradeTurn
    (hm : S.upgradeTurn asked S.newest cx (x, S.version x) = .panics m) : S.StepFault cx x m := by
  unfold upgradeTurn at hm
  by_cases hx : S.version x = S.newest
  · simp only [if_pos hx] at hm
    cases hs : S.step x cx with
    | next y =>
      have hfault := StepFault.newest hx (show S.named (S.step x cx) = _ by rw [hs]; rfl)
      rw [hs] at hm
      cases hm
      convert hfault using 1
      simp only [String.append_assoc]
      rfl
    | done l =>
      rw [hs] at hm
      cases hm
    | failed toVersion source =>
      have hfault := StepFault.newest hx (show S.named (S.step x cx) = _ by rw [hs]; rfl)
      rw [hs] at hm
      cases hm
      convert hfault using 1
      simp only [String.append_assoc]
      rfl
  · simp only [if_neg hx] at hm
    cases hs : S.step x cx with
    | next y =>
      rw [hs] at hm
      rcases Exec.bind_eq_panics hm with hforward | ⟨u, -, hpure⟩
      · exact stepFault_of_assertForward hx (by rw [hs]; rfl) hforward
      · cases hpure
    | done l =>
      have hfault := StepFault.done hx hs
      rw [hs] at hm
      cases hm
      convert hfault using 1
      simp only [String.append_assoc]
      rfl
    | failed toVersion source =>
      rw [hs] at hm
      rcases Exec.bind_eq_panics hm with hforward | ⟨u, -, herr⟩
      · exact stepFault_of_assertForward hx (by rw [hs]; rfl) hforward
      · cases herr

/-- **A turn panics exactly with the fault of its step.** -/
theorem upgradeTurn_eq_panics_iff (asked : UInt32) :
    S.upgradeTurn asked S.newest cx (x, S.version x) = .panics m ↔ S.StepFault cx x m := by
  refine ⟨stepFault_of_upgradeTurn, fun h => ?_⟩
  obtain ⟨m', hm'⟩ := (upgradeTurn_panics_iff asked).2 h.not_legal
  rw [hm', h.unique (stepFault_of_upgradeTurn hm')]

/-! ## The loop -/

/-- A value of another version than was asked for, before any step. -/
theorem upgrade_eq_panics_of_ne (cx : S.Context) (hx : S.version x ≠ asked) :
    S.upgrade x asked cx = .panics (s!"{S.typeName}::parse was asked for version {asked}, but " ++
      s!"returned a version {S.version x} value") := by
  simp only [upgrade, latestVersion_eq, Exec.ok_bind, ne_eq, hx, not_false_eq_true, if_true,
    Exec.panics.injEq, String.append_assoc]
  rfl

/-- Of the version asked for, the loop panics where a chain of legal steps ends with a fault. -/
theorem upgrade_eq_panics_of_eq (hx : S.version x = asked) :
    S.upgrade x asked cx = .panics m ↔
      ∃ last, S.LegalChain cx (S.stepCalls x asked cx) last ∧ S.StepFault cx last m := by
  obtain ⟨last, hlast, hexit⟩ := exists_last cx hx
  simp only [LegalChain, stepCalls_isChain cx hx, hlast, true_and]
  constructor
  · intro hm
    refine ⟨last, rfl, (upgradeTurn_eq_panics_iff asked).1 ?_⟩
    rw [hm] at hexit
    cases hturn : S.upgradeTurn asked S.newest cx (last, S.version last) with
    | ok flow =>
      rw [hturn] at hexit
      cases flow <;> cases hexit
    | err e => rw [hturn] at hexit; cases hexit
    | panics m' => rw [hturn] at hexit; cases hexit; rfl
    | hang => rw [hturn] at hexit; cases hexit
  · rintro ⟨y, hy, hfault⟩
    cases hy
    rw [(upgradeTurn_eq_panics_iff asked).2 hfault] at hexit
    exact (Option.some.inj hexit).symm

/-- **All that the loop can panic with**, where `version` and `step` return: the value has another
    version than was asked for, before any step; or a chain of legal steps ends with a fault. -/
theorem upgrade_panics_iff (x : S.Value) (asked : UInt32) (cx : S.Context) :
    S.upgrade x asked cx = .panics m ↔
      (S.version x ≠ asked ∧ m = (s!"{S.typeName}::parse was asked for version {asked}, but " ++
        s!"returned a version {S.version x} value")) ∨
      (S.version x = asked ∧ ∃ last, S.LegalChain cx (S.stepCalls x asked cx) last ∧
        S.StepFault cx last m) := by
  by_cases hx : S.version x = asked
  · rw [upgrade_eq_panics_of_eq hx]
    simp only [hx, ne_eq, not_true_eq_false, false_and, true_and, false_or]
  · rw [upgrade_eq_panics_of_ne cx hx]
    simp only [hx, ne_eq, not_false_eq_true, true_and, false_and, or_false, Exec.panics.injEq]
    exact eq_comm

/-! ## The readers -/

/-- The parses of an envelope read: the version that the document names, if it is listed, at its
    data, and what the pass over the document returns. -/
def InEnvelope (S : VersionSet J) (bytes : Bytes) (v : UInt32) (c : Cursor)
    (parsed : Exec J.Error S.Value) : Prop :=
  ∃ version data, IsEnvelope J.inRange bytes version data ∧
    versionNumber version.value = some v ∧ v ∈ S.VERSIONS ∧ c = memberCursor bytes data ∧
    parsed = deserializeField J bytes .data (S.parse v)

/-- The parses of an untagged read: a listed version, where every newer one refuses the document,
    at the start of it. -/
def Bare (S : VersionSet J) (bytes : Bytes) (v : UInt32) (c : Cursor)
    (parsed : Exec J.Error S.Value) : Prop :=
  validateJson J bytes = .ok () ∧ v ∈ S.VERSIONS ∧
    (∀ u ∈ S.VERSIONS, v < u → ∃ e, S.attempt bytes u = .err e) ∧ c = Cursor.fromSlice bytes ∧
    parsed = S.attempt bytes v

/-- All that a panic can be about, where `version` and `step` return, for a reader that makes these
    parses. -/
inductive Blame (S : VersionSet J) (cx : S.Context)
    (parses : UInt32 → Cursor → Exec J.Error S.Value → Prop) : String → Prop where
  /-- `parse` panicked itself. -/
  | parse {v : UInt32} {c : Cursor} {parsed : Exec J.Error S.Value} {m : String}
      (h : parses v c parsed) (hp : S.parse v c = .panics m) : Blame S cx parses m
  /-- `parse` returned a value of another version. -/
  | version {v : UInt32} {c c' : Cursor} {x : S.Value} (h : parses v c (.ok x))
      (hp : S.parse v c = .ok (x, c')) (hx : S.version x ≠ v) :
      Blame S cx parses (s!"{S.typeName}::parse was asked for version {v}, but " ++
        s!"returned a version {S.version x} value")
  /-- `step` committed a fault, at the end of a chain of legal steps from the parsed value. -/
  | step {v : UInt32} {c c' : Cursor} {x last : S.Value} {m : String} (h : parses v c (.ok x))
      (hp : S.parse v c = .ok (x, c')) (hx : S.version x = v)
      (hchain : S.LegalChain cx (S.stepCalls x v cx) last) (hfault : S.StepFault cx last m) :
      Blame S cx parses m

section Readers

variable {bytes : Bytes} {fallback : NotAnEnvelopeReason → Exec DynError S.Latest} {v : UInt32}
  {parses : UInt32 → Cursor → Exec J.Error S.Value → Prop}

/-- **A parse and the conversion of what it returned**: the blame for the two. -/
theorem blame_iff (hseed : ∀ {v c x}, parses v c (.ok x) → ∃ c', S.parse v c = .ok (x, c')) :
    S.Blame cx parses m ↔ ∃ v c parsed, parses v c parsed ∧
      (S.parse v c = .panics m ∨ ∃ x, parsed = .ok x ∧ S.upgrade x v cx = .panics m) := by
  constructor
  · intro h
    cases h with
    | parse h hp => exact ⟨_, _, _, h, .inl hp⟩
    | version h hp hx => exact ⟨_, _, _, h, .inr ⟨_, rfl, upgrade_eq_panics_of_ne cx hx⟩⟩
    | step h hp hx hchain hfault =>
      exact ⟨_, _, _, h, .inr ⟨_, rfl, (upgrade_eq_panics_of_eq hx).2 ⟨_, hchain, hfault⟩⟩⟩
  · rintro ⟨v, c, parsed, h, hp | ⟨x, rfl, hup⟩⟩
    · exact .parse h hp
    · obtain ⟨c', hp⟩ := hseed h
      by_cases hx : S.version x = v
      · obtain ⟨last, hchain, hfault⟩ := (upgrade_eq_panics_of_eq hx).1 hup
        exact .step h hp hx hchain hfault
      · rw [upgrade_eq_panics_of_ne cx hx] at hup
        cases hup
        exact .version h hp hx

/-- The conversion of a parsed value, and what follows it. -/
theorem convert_eq_panics {E : Type} {e : ConversionFailed → E}
    {g : S.Latest → ReadOutput S.Latest} :
    ((S.upgrade x v cx).mapErr e >>= fun l => Exec.ok (g l)) = .panics m ↔
      S.upgrade x v cx = .panics m := by
  cases S.upgrade x v cx <;> simp

theorem blame_inEnvelope_iff : S.Blame cx (S.InEnvelope bytes) m ↔
    ∃ version data v, IsEnvelope J.inRange bytes version data ∧
      versionNumber version.value = some v ∧ v ∈ S.VERSIONS ∧
      (S.parse v (memberCursor bytes data) = .panics m ∨
        ∃ x, deserializeField J bytes .data (S.parse v) = .ok x ∧
          S.upgrade x v cx = .panics m) := by
  rw [blame_iff]
  · constructor
    · rintro ⟨v, c, parsed, ⟨version, data, henv, hversion, hv, rfl, rfl⟩, h⟩
      exact ⟨version, data, v, henv, hversion, hv, h⟩
    · rintro ⟨version, data, v, henv, hversion, hv, h⟩
      exact ⟨v, _, _, ⟨version, data, henv, hversion, hv, rfl, rfl⟩, h⟩
  · rintro v c x ⟨version, data, henv, -, -, rfl, hx⟩
    exact henv.deserializeField_ok .data hx.symm

theorem blame_bare_iff : S.Blame cx (S.Bare bytes) m ↔
    validateJson J bytes = .ok () ∧ ∃ v ∈ S.VERSIONS,
      (∀ u ∈ S.VERSIONS, v < u → ∃ e, S.attempt bytes u = .err e) ∧
      (S.attempt bytes v = .panics m ∨
        ∃ x, S.attempt bytes v = .ok x ∧ S.upgrade x v cx = .panics m) := by
  rw [blame_iff]
  · constructor
    · rintro ⟨v, c, parsed, ⟨hvalid, hv, hnewer, rfl, rfl⟩, h⟩
      exact ⟨hvalid, v, hv, hnewer, h.imp_left SerdeJson.fromSlice_eq_panics.2⟩
    · rintro ⟨hvalid, v, hv, hnewer, h⟩
      exact ⟨v, _, _, ⟨hvalid, hv, hnewer, rfl, rfl⟩, h.imp_left SerdeJson.fromSlice_eq_panics.1⟩
  · rintro v c x ⟨-, -, -, rfl, hx⟩
    exact SerdeJson.exists_seed_of_fromSlice hx.symm

theorem readJsonWith_eq_panics_iff :
    S.readJsonWith bytes cx = .panics m ↔ S.Blame cx (S.InEnvelope bytes) m := by
  rw [blame_inEnvelope_iff]
  constructor
  · intro hm
    rcases parse_cases J bytes with ⟨e, he⟩ | ⟨version, data, v, henv, hversion⟩
    · rw [readJsonWith_of_parse_err cx he] at hm
      cases hm
    · have hparse := (Envelope.parse_of_isEnvelope henv).1 v hversion
      by_cases hv : v ∈ S.VERSIONS
      · refine ⟨version, data, v, henv, hversion, hv, ?_⟩
        rw [readJsonWith_of_mem cx hparse hv] at hm
        rcases Exec.bind_eq_panics hm with hdata | ⟨x, hx, hm⟩
        · exact .inl (henv.deserializeField_panics .data (Exec.mapErr_eq_panics.1 hdata))
        · exact .inr ⟨x, Exec.mapErr_eq_ok.1 hx, convert_eq_panics.1 hm⟩
      · rw [readJsonWith_of_not_mem cx hparse hv] at hm
        cases hm
  · rintro ⟨version, data, v, henv, hversion, hv, h⟩
    rw [readJsonWith_of_mem cx ((Envelope.parse_of_isEnvelope henv).1 v hversion) hv]
    simp only [Envelope.data]
    rcases h with hp | ⟨x, hx, hup⟩
    · rw [henv.deserializeField_of_panics .data hp]
      rfl
    · rw [hx]
      exact convert_eq_panics.2 hup

/-- **The loop over the versions panics** at one that it comes to, past those that refuse. -/
theorem tryVersions_panics : ∀ {versions : List UInt32} {attempts : List (VersionAttempt J.Error)},
    S.tryVersions bytes cx versions attempts = .panics m →
      ∃ newer v older, versions = newer ++ v :: older ∧
        (∀ u ∈ newer, ∃ e, S.attempt bytes u = .err e) ∧
        (S.attempt bytes v = .panics m ∨
          ∃ x, S.attempt bytes v = .ok x ∧ S.upgrade x v cx = .panics m) := by
  intro versions
  induction versions with
  | nil =>
    intro attempts hm
    cases hm
  | cons v versions ih =>
    intro attempts hm
    unfold tryVersions at hm
    cases hx : S.attempt bytes v with
    | ok x =>
      simp only [show J.fromSlice (S.parse v) bytes = _ from hx, latestVersion_eq, Exec.ok_bind,
        Exec.pure_eq] at hm
      exact ⟨[], v, versions, rfl, by simp, .inr ⟨x, hx, convert_eq_panics.1 hm⟩⟩
    | err e =>
      rw [show J.fromSlice (S.parse v) bytes = _ from hx] at hm
      obtain ⟨newer, w, older, rfl, hnewer, h⟩ := ih hm
      exact ⟨v :: newer, w, older, rfl, List.forall_mem_cons.2 ⟨⟨e, hx⟩, hnewer⟩, h⟩
    | panics m' =>
      rw [show J.fromSlice (S.parse v) bytes = _ from hx] at hm
      cases hm
      exact ⟨[], v, versions, rfl, by simp, .inl hx⟩
    | hang =>
      rw [show J.fromSlice (S.parse v) bytes = _ from hx] at hm
      cases hm

theorem readUntaggedJsonWith_eq_panics_iff :
    S.readUntaggedJsonWith bytes cx = .panics m ↔ S.Blame cx (S.Bare bytes) m := by
  rw [blame_bare_iff]
  constructor
  · intro hm
    rcases Exec.bind_eq_panics hm with hvalid | ⟨u, hvalid, hm⟩
    · have hsettles := validateJson_settles J bytes
      rw [Exec.mapErr_eq_panics.1 hvalid] at hsettles
      exact hsettles.elim
    · obtain ⟨newer, v, older, hsplit, hnewer, h⟩ := tryVersions_panics hm
      have hv : v ∈ S.VERSIONS := List.mem_reverse.1 (hsplit ▸ by simp)
      exact ⟨Exec.mapErr_eq_ok.1 hvalid, v, hv,
        fun u hu hlt => hnewer u ((mem_newer_iff hsplit).2 ⟨hu, hlt⟩), h⟩
  · rintro ⟨hvalid, v, hv, hnewer, h⟩
    obtain ⟨newer, older, hsplit⟩ := List.append_of_mem (List.mem_reverse.2 hv)
    obtain ⟨failed, -, -, hloop⟩ := tryVersions_of_refused bytes cx fun u hu =>
      hnewer u ((mem_newer_iff hsplit).1 hu).1 ((mem_newer_iff hsplit).1 hu).2
    rw [readUntaggedJsonWith_of_valid cx hvalid, hsplit, hloop]
    rcases h with hp | ⟨x, hx, hup⟩
    · rw [tryVersions, show J.fromSlice (S.parse v) bytes = _ from hp]
    · rw [tryVersions_of_accepts cx hx, hup]
      rfl

/-- **A reader panics exactly for what its callbacks did on the document it read**: in an envelope
    read, the version that the envelope names and its data are to blame; in an untagged read, the
    whole document at a version that every newer one leaves it to; and a reader with a fallback
    answers for the fallback, on what is not an envelope. -/
theorem readers_panics :
    (S.readJsonWith bytes cx = .panics m ↔ S.Blame cx (S.InEnvelope bytes) m) ∧
    (S.readUntaggedJsonWith bytes cx = .panics m ↔ S.Blame cx (S.Bare bytes) m) ∧
    (S.readJsonOrElseWith bytes cx fallback = .panics m ↔ S.Blame cx (S.InEnvelope bytes) m ∨
      ∃ reason, S.readJsonWith bytes cx = .err (.envelope (.notAnEnvelope reason)) ∧
        fallback reason = .panics m) ∧
    (S.readJsonOrUntaggedWith bytes cx = .panics m ↔ S.Blame cx (S.InEnvelope bytes) m ∨
      (∃ reason, S.readJsonWith bytes cx = .err (.envelope (.notAnEnvelope reason))) ∧
        S.Blame cx (S.Bare bytes) m) := by
  refine ⟨readJsonWith_eq_panics_iff, readUntaggedJsonWith_eq_panics_iff, ?_⟩
  simp only [← readJsonWith_eq_panics_iff, ← readUntaggedJsonWith_eq_panics_iff]
  rcases S.fallback_cases bytes cx with ⟨reason, hread, helse, huntagged⟩ |
    ⟨hread, helse, huntagged⟩
  · rw [helse, huntagged, hread]
    simp only [reduceCtorEq, false_or, Exec.err.injEq, ReadError.envelope.injEq,
      EnvelopeError.notAnEnvelope.injEq, exists_eq', true_and, exists_eq_left',
      Exec.mapErr_eq_panics, and_true]
    cases fallback reason <;> simp
  · simp only [helse, huntagged, hread, Exec.mapErr_eq_panics, false_and, exists_false, or_false,
      and_self]

end Readers

/-- Three versions, with a step that leaves them. -/
def ladder : VersionSet (SerdeJson.reference fun _ => true) where
  Value := UInt32
  Latest := UInt32
  Context := Unit
  typeName := "Ladder"
  VERSIONS := [1, 2, 5]
  parse _ := (Versioned.counter 1).seed
  version x := x
  step x _ := if x = 5 then .done x else .next (x + 2)
  wellFormed := rfl

-- the step from version 1 leads to version 3
example :
    ladder.readJsonWith (ascii "\x7b\"version\":1,\"versioned_data\":1\x7d") () =
      .panics ("Ladder::step for version 1 returned Next naming version 3, but 3 is not in " ++
        "VERSIONS") := rfl

end VersionSet

end VersionedEnvelope
