import VersionedEnvelope.Verdict

/-!
# Unsupported versions

What `UnsupportedVersion::kind` says of the version of an envelope that is not listed.

* `kind_eq` — on a well-formed list it is total, and the two ends of the list decide it.
* `kind_iff` — it classifies against every listed version.
* `readJsonWith_unsupported` — what the reader reports is not listed, and is classified so.
-/

set_option autoImplicit false

namespace VersionedEnvelope

open Json

namespace UnsupportedVersion

variable {u : UnsupportedVersion}

/-- **On a well-formed list `kind` is total.** -/
theorem kind_eq (h : u.supported ≠ []) :
    u.kind = .ok (if u.found > u.supported.getLast h then .newer (u.supported.getLast h)
      else if u.found < u.supported.head h then .older (u.supported.head h)
      else .gap) := by
  unfold kind
  rw [List.head?_eq_some_head h, List.getLast?_eq_some_getLast h]
  simp only [Exec.expect_some, Exec.ok_bind, Exec.pure_eq]
  split_ifs <;> rfl

theorem kind_cons (found v : UInt32) (versions : List UInt32) :
    (⟨found, v :: versions⟩ : UnsupportedVersion).kind =
      .ok (if found > (v :: versions).getLast (List.cons_ne_nil _ _)
        then .newer ((v :: versions).getLast (List.cons_ne_nil _ _))
        else if found < v then .older v else .gap) :=
  kind_eq (u := ⟨found, v :: versions⟩) (List.cons_ne_nil _ _)

/-- What is older than the first version is older than all. -/
theorem kind_of_lt {found v : UInt32} {versions : List UInt32} (h : Ascending (v :: versions))
    (hlt : found < v) : (⟨found, v :: versions⟩ : UnsupportedVersion).kind = .ok (.older v) := by
  have hle := h.le_getLast (List.mem_cons_self ..) (List.cons_ne_nil v versions)
  rw [kind_cons, if_neg (not_lt.2 (hlt.le.trans hle)), if_pos hlt]

/-- **`kind` classifies against every listed version**, though it looks at the ends only. -/
theorem kind_iff (hwell : assertVersionSetWellFormed u.supported = .ok ())
    (hfound : u.found ∉ u.supported) :
    ∃ kind, u.kind = .ok kind ∧
      (∀ latest, kind = .newer latest ↔ (∀ v ∈ u.supported, v < u.found) ∧
        latest ∈ u.supported ∧ ∀ v ∈ u.supported, v ≤ latest) ∧
      (∀ oldest, kind = .older oldest ↔ (∀ v ∈ u.supported, u.found < v) ∧
        oldest ∈ u.supported ∧ ∀ v ∈ u.supported, oldest ≤ v) ∧
      (kind = .gap ↔ ∃ a b, [a, b] <:+: u.supported ∧ a < u.found ∧ u.found < b) := by
  obtain ⟨hne, hasc⟩ := assertVersionSetWellFormed_iff.1 hwell
  obtain ⟨habove, hbelow, hbetween⟩ := hasc.position hne hfound
  have hlast : ∀ latest, u.supported.getLast hne = latest ↔
      latest ∈ u.supported ∧ ∀ v ∈ u.supported, v ≤ latest := fun latest =>
    ⟨fun h => h ▸ ⟨List.getLast_mem hne, fun v hv => hasc.le_getLast hv hne⟩,
      fun h => (h.2 _ (List.getLast_mem hne)).antisymm (hasc.le_getLast h.1 hne)⟩
  have hhead : ∀ oldest, u.supported.head hne = oldest ↔
      oldest ∈ u.supported ∧ ∀ v ∈ u.supported, oldest ≤ v := fun oldest =>
    ⟨fun h => h ▸ ⟨List.head_mem hne, fun v hv => hasc.head_le hv hne⟩,
      fun h => (hasc.head_le h.1 hne).antisymm (h.2 _ (List.head_mem hne))⟩
  have horder : u.supported.head hne ≤ u.supported.getLast hne :=
    hasc.head_le (List.getLast_mem hne) hne
  refine ⟨_, kind_eq hne, fun latest => ?_, fun oldest => ?_, ?_⟩
  · rw [← habove, ← hlast]
    split_ifs with hgt hlt <;> simp_all
  · rw [← hbelow, ← hhead]
    split_ifs with hgt hlt
    · simp only [false_iff, not_and]
      exact fun hlt => absurd ((hlt.trans_le horder).trans hgt) (lt_irrefl _)
    · simp [hlt]
    · simp [hlt]
  · rw [← hbetween]
    split_ifs with hgt hlt <;> simp_all

end UnsupportedVersion

namespace VersionSet

variable {J : SerdeJson} {S : VersionSet J} {bytes : Bytes} {cx : S.Context}

/-- An unsupported version is reported with the listed versions, of which it is none. -/
theorem readJsonWith_eq_unsupported {u : UnsupportedVersion}
    (h : S.readJsonWith bytes cx = .err (.unsupportedVersion u)) :
    u.supported = S.VERSIONS ∧ u.found ∉ S.VERSIONS ∧
      ∃ envelope, Envelope.parse J bytes = .ok envelope ∧ envelope.version = u.found := by
  rcases readJsonWith_err_cases h with
    ⟨_, _, he⟩ | ⟨envelope, hp, ⟨hv, he⟩ | ⟨_, ⟨_, he⟩ | ⟨_, he⟩⟩⟩
  · cases he
  · cases he
    exact ⟨rfl, hv, envelope, hp, rfl⟩
  · cases he
  · cases he

/-- **The kind of an unsupported version** that the reader reports: newer than every listed
    version, older than every one, or between two neighbours; it is never a listed one. -/
theorem readJsonWith_unsupported {u : UnsupportedVersion}
    (h : S.readJsonWith bytes cx = .err (.unsupportedVersion u)) :
    u.supported = S.VERSIONS ∧ u.found ∉ S.VERSIONS ∧ ∃ kind, u.kind = .ok kind ∧
      (∀ latest, kind = .newer latest ↔ (∀ v ∈ S.VERSIONS, v < u.found) ∧
        latest ∈ S.VERSIONS ∧ ∀ v ∈ S.VERSIONS, v ≤ latest) ∧
      (∀ oldest, kind = .older oldest ↔ (∀ v ∈ S.VERSIONS, u.found < v) ∧
        oldest ∈ S.VERSIONS ∧ ∀ v ∈ S.VERSIONS, oldest ≤ v) ∧
      (kind = .gap ↔ ∃ a b, [a, b] <:+: S.VERSIONS ∧ a < u.found ∧ u.found < b) := by
  obtain ⟨hsupported, hfound, -⟩ := readJsonWith_eq_unsupported h
  refine ⟨hsupported, hfound, ?_⟩
  rw [← hsupported] at hfound ⊢
  exact UnsupportedVersion.kind_iff (hsupported ▸ S.wellFormed) hfound

theorem readJsonWith_unsupported_stairs :
    ∃ u, stairs.readJsonWith (ascii "\x7b\"version\":3,\"versioned_data\":1\x7d") () =
      .err (.unsupportedVersion u) ∧ u.found ∉ stairs.VERSIONS ∧
      ∃ a b, [a, b] <:+: stairs.VERSIONS ∧ a < u.found ∧ u.found < b := by
  have hread : stairs.readJsonWith (ascii "\x7b\"version\":3,\"versioned_data\":1\x7d") () =
      .err (.unsupportedVersion ⟨3, [1, 2, 4]⟩) := rfl
  obtain ⟨-, hfound, kind, hkind, -, -, hgap⟩ := readJsonWith_unsupported hread
  have hkind' : (⟨3, [1, 2, 4]⟩ : UnsupportedVersion).kind = .ok .gap := rfl
  rw [hkind'] at hkind
  cases hkind
  exact ⟨_, hread, hfound, hgap.1 rfl⟩

end VersionSet

end VersionedEnvelope
