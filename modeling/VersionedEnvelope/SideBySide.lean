import VersionedEnvelope.Adoption

/-!
# Releases side by side

While a program is rolled out, several of its releases are in use at once, and share a stored
document: any of them may read it and write it again, in any order.  An older release meets what a
newer one wrote, and reports it as `Newer`.

* `Timeline` — the releases of a program, and `Timeline.upTo`: the history of each.
* `History.convert_injective` — without a version that is added, nothing is converted.
* `Timeline.Shared` — the runs of a document that all releases share.
* `Timeline.Shared.sound` — every rewrite keeps what the document is for every release.
* `Timeline.Shared.reads_original` — no order of rewrites downgrades a document, or changes what a
  release reads.
* `Timeline.Turns` — the runs in which a release writes only where `needs_rewrite` says so, any
  value it likes.
* `Timeline.Turns.no_back_and_forth` — the releases take turns from older to newer, and then no
  rewrite is needed.
-/

set_option autoImplicit false

namespace VersionedEnvelope

open Json

/-- Where a converted result is a value, so is what was converted. -/
theorem carry_eq_ok {L L' E : Type} {failed : ConversionFailed → E} {v newest : UInt32}
    {convert : L → Except (UInt32 × UInt32 × DynError) L'} {r : Exec E (ReadOutput L)}
    {output' : ReadOutput L'} (h : carry failed v newest convert r = .ok output') :
    ∃ output, r = .ok output ∧ convert output.value = .ok output'.value := by
  cases r with
  | ok output =>
    simp only [carry] at h
    cases hl : convert output.value with
    | ok l =>
      rw [hl] at h
      cases h
      exact ⟨output, rfl, hl⟩
    | error b =>
      rw [hl] at h
      cases h
  | err e => cases h
  | panics m => cases h
  | hang => cases h

namespace Declaration

variable {J : SerdeJson}

/-- What the output of a reader says of the envelope that was read. -/
theorem Accepted.readJson_output {D : Declaration J} (hD : D.Accepted) {bytes : Bytes}
    {version data : Located Json} {v : UInt32} {output : ReadOutput D.Latest}
    (henv : IsEnvelope J.inRange bytes version data)
    (hversion : versionNumber version.value = some v)
    (hread : hD.versionSet.readJson bytes = .ok output) :
    v ∈ D.VERSIONS ∧ output.origin = .envelope v ∧ output.latest = hD.versionSet.newest := by
  have hmem := VersionSet.mem_of_readJsonWith_ok henv hversion hread
  have hpayload := (hD.readJson_of_isEnvelope henv hversion hmem).symm.trans hread
  exact ⟨hmem, VersionSet.readPayload_ok hpayload, VersionSet.readPayload_latest hpayload⟩

/-! ## Histories that are put together -/

namespace History

variable {D₀ D₁ D : Declaration J} {hD₀ : D₀.Accepted} {hD₁ : D₁.Accepted} {hD : D.Accepted}

theorem convert_followedBy (h₁ : History hD₀ hD₁) (h₂ : History hD₁ hD) (l : D₀.Latest) :
    (h₁.followedBy h₂).convert l = h₁.convert l >>= h₂.convert := by
  induction h₂ with
  | start => exact (bind_pure (h₁.convert l)).symm
  | append D hD h₂ name New step hnew ih =>
    have hstep : (h₁.followedBy (.append D hD h₂ name New step hnew)).convert l =
        (h₁.followedBy h₂).convert l >>= step.convertFrom hD.versionSet.newest New.VERSION := rfl
    rw [hstep, ih, bind_assoc]
    rfl
  | dropOldest D hD h₂ hleft ih => exact ih

/-- **Without a version that is added, nothing is converted.** -/
theorem convert_injective (h : History hD₀ hD)
    (hnewest : hD.versionSet.newest ≤ hD₀.versionSet.newest) {l l' : D₀.Latest} {x : D.Latest}
    (hl : h.convert l = .ok x) (hl' : h.convert l' = .ok x) : l = l' := by
  induction h with
  | start => exact Except.ok.inj (hl.trans hl'.symm)
  | append D hD h name New step hnew ih =>
    rw [newest_append] at hnewest
    exact absurd (h.newest_le.trans_lt hnew) (not_lt.2 hnewest)
  | dropOldest D hD h hleft ih =>
    rw [hD.newest_dropOldest] at hnewest
    exact ih hnewest hl hl'

end History

/-! ## The releases of a program -/

/-- The releases of a program, in order. -/
structure Timeline (J : SerdeJson) where
  release : ℕ → Declaration J
  accepted : ∀ i, (release i).Accepted
  next : ∀ i, History (accepted i) (accepted (i + 1))

namespace Timeline

/-- The history of a release. -/
def upTo (P : Timeline J) : ∀ k, History (P.accepted 0) (P.accepted k)
  | 0 => .start
  | k + 1 => (P.upTo k).followedBy (P.next k)

/-- The history of a release from an earlier one on. -/
def between (P : Timeline J) (i : ℕ) : ∀ n, History (P.accepted i) (P.accepted (i + n))
  | 0 => .start
  | n + 1 => (P.between i n).followedBy (P.next (i + n))

variable (P : Timeline J)

/-- What a release converts, an earlier one has converted part of the way. -/
theorem convert_upTo (i n : ℕ) (l : (P.release 0).Latest) :
    (P.upTo (i + n)).convert l = (P.upTo i).convert l >>= (P.between i n).convert := by
  induction n with
  | zero => exact (bind_pure ((P.upTo i).convert l)).symm
  | succ n ih =>
    have hupTo : (P.upTo (i + (n + 1))).convert l =
        (P.upTo (i + n)).convert l >>= (P.next (i + n)).convert :=
      (P.upTo (i + n)).convert_followedBy (P.next (i + n)) l
    have hbetween : (P.between i (n + 1)).convert =
        fun x => (P.between i n).convert x >>= (P.next (i + n)).convert :=
      funext ((P.between i n).convert_followedBy (P.next (i + n)))
    rw [hupTo, ih, bind_assoc, hbetween]

/-- A release reads a document of version `v` as a value of the first release, converted. -/
def ReadsAs (l₀ : (P.release 0).Latest) (v : UInt32) (bytes : Bytes) (k : ℕ) : Prop :=
  (P.accepted k).versionSet.readJson bytes =
    carry .conversion v (P.accepted k).versionSet.newest (P.upTo k).convert
      (.ok ⟨l₀, .envelope v, (P.accepted 0).versionSet.newest⟩)

section ReadsAs

variable {P} {l₀ : (P.release 0).Latest} {v : UInt32} {bytes : Bytes} {version data : Located Json}

/-- The value that was converted, where a document is read. -/
theorem ReadsAs.convert_eq {k : ℕ} (h : P.ReadsAs l₀ v bytes k)
    {output : ReadOutput (P.release k).Latest}
    (hread : (P.accepted k).versionSet.readJson bytes = .ok output) :
    (P.upTo k).convert l₀ = .ok output.value := by
  obtain ⟨output₀, houtput₀, hvalue⟩ := carry_eq_ok (h.symm.trans hread)
  cases houtput₀
  exact hvalue

/-- What a release reads, a later one reads, converted further. -/
theorem ReadsAs.later {i : ℕ} (h : P.ReadsAs l₀ v bytes i)
    (henv : IsEnvelope J.inRange bytes version data)
    (hversion : versionNumber version.value = some v) (hi : v ∈ (P.release i).VERSIONS) (n : ℕ)
    (hv : v ∈ (P.release (i + n)).VERSIONS) : P.ReadsAs l₀ v bytes (i + n) := by
  have hconvert : (P.upTo (i + n)).convert =
      fun l => (P.upTo i).convert l >>= (P.between i n).convert := funext (P.convert_upTo i n)
  unfold ReadsAs at h ⊢
  rw [(P.between i n).readJson henv hversion hi hv, h, carry_carry, hconvert]

/-- An earlier release that lists what a later one writes has the same newest version, and reads it
    as the value that the later one had from it. -/
theorem ReadsAs.earlier {k n : ℕ} (h : P.ReadsAs l₀ v bytes (k + n))
    (henv : IsEnvelope J.inRange bytes version data)
    (hversion : versionNumber version.value = some v) (hk : v ∈ (P.release k).VERSIONS)
    (hv : v = (P.accepted (k + n)).versionSet.newest)
    {output : ReadOutput (P.release (k + n)).Latest}
    (hread : (P.accepted (k + n)).versionSet.readJson bytes = .ok output) :
    P.ReadsAs l₀ v bytes k := by
  have hmem : v ∈ (P.release (k + n)).VERSIONS := by
    rw [hv]
    exact (P.accepted (k + n)).versionSet.newest_mem
  have hnewest : (P.accepted (k + n)).versionSet.newest ≤ (P.accepted k).versionSet.newest := by
    rw [← hv]
    exact (P.accepted k).versionSet.le_newest hk
  -- the value that the earlier release reads, and the one that it converted
  obtain ⟨output', hread', hvalue'⟩ :=
    carry_eq_ok (((P.between k n).readJson henv hversion hk hmem).symm.trans hread)
  have hconvert := h.convert_eq hread
  rw [P.convert_upTo k n l₀] at hconvert
  cases hl : (P.upTo k).convert l₀ with
  | error b =>
    rw [hl] at hconvert
    cases hconvert
  | ok l =>
    rw [hl] at hconvert
    obtain rfl : l = output'.value := (P.between k n).convert_injective hnewest hconvert hvalue'
    obtain ⟨-, horigin, hlatest⟩ := (P.accepted k).readJson_output henv hversion hread'
    obtain ⟨l, origin, latest⟩ := output'
    obtain rfl : origin = .envelope v := horigin
    obtain rfl : latest = (P.accepted k).versionSet.newest := hlatest
    simp only [ReadsAs, carry, hl]
    exact hread'

end ReadsAs

namespace Shared

variable {P} {v₀ v : UInt32} {bytes₀ bytes : Bytes} {l₀ : (P.release 0).Latest}

/-- What holds of a shared document: it is an envelope of a version that some release lists, not
    below the first one, and each release that lists it reads what it would have read at first. -/
structure Sound (P : Timeline J) (v₀ v : UInt32) (bytes : Bytes) (l₀ : (P.release 0).Latest) :
    Prop where
  envelope : ∃ version data, IsEnvelope J.inRange bytes version data ∧
    versionNumber version.value = some v
  upgraded : v₀ ≤ v
  listed : ∃ j, v ∈ (P.release j).VERSIONS
  reads : ∀ k, v ∈ (P.release k).VERSIONS → P.ReadsAs l₀ v bytes k

theorem Sound.start {output₀ : ReadOutput (P.release 0).Latest}
    (hread₀ : (P.accepted 0).versionSet.readJson bytes₀ = .ok output₀)
    (hv₀ : output₀.origin = .envelope v₀) : Sound P v₀ v₀ bytes₀ output₀.value := by
  obtain ⟨⟨version, data, henv, hversion⟩, -, hreads⟩ := Stored.Kept.start hread₀ hv₀
  have hmem := VersionSet.mem_of_readJsonWith_ok henv hversion hread₀
  have hzero : P.ReadsAs output₀.value v₀ bytes₀ 0 := hreads hmem
  refine ⟨⟨version, data, henv, hversion⟩, le_rfl, ⟨0, hmem⟩, fun k hv => ?_⟩
  obtain ⟨n, rfl⟩ := Nat.exists_eq_add_of_le (Nat.zero_le k)
  exact hzero.later henv hversion hmem n hv

/-- A rewrite stores what the release read, at its newest version. -/
theorem Sound.rewrite (hsound : Sound P v₀ v bytes l₀) (i : ℕ) {text : Bytes}
    {output : ReadOutput (P.release i).Latest}
    (hread : (P.accepted i).versionSet.readJson bytes = .ok output)
    (hwrite : (P.accepted i).versionSet.Rewrite output.value text) :
    Sound P v₀ (P.accepted i).versionSet.newest text l₀ := by
  obtain ⟨⟨version, data, henv, hversion⟩, hupgraded, -, hreads⟩ := hsound
  have hmem := VersionSet.mem_of_readJsonWith_ok henv hversion hread
  have hconvert := (hreads i hmem).convert_eq hread
  have hrewritten : (P.accepted i).versionSet.readJson text = .ok ⟨output.value,
      .envelope (P.accepted i).versionSet.newest, (P.accepted i).versionSet.newest⟩ := hwrite.reads
  obtain ⟨version', data', henv', hversion'⟩ := hwrite.isEnvelope ()
  have hnewest := (P.accepted i).versionSet.newest_mem
  have hi : P.ReadsAs l₀ (P.accepted i).versionSet.newest text i := by
    simp only [ReadsAs, carry, hconvert]
    exact hrewritten
  refine ⟨⟨version', data', henv', hversion'⟩,
    hupgraded.trans ((P.accepted i).versionSet.le_newest hmem), ⟨i, hnewest⟩, fun k hk => ?_⟩
  rcases le_total i k with hle | hle
  · obtain ⟨n, rfl⟩ := Nat.exists_eq_add_of_le hle
    exact hi.later henv' hversion' hnewest n hk
  · obtain ⟨n, rfl⟩ := Nat.exists_eq_add_of_le hle
    exact hi.earlier henv' hversion' hk rfl hrewritten

end Shared

/-- A value of the newest version is written, as JSON that `serde_json` accepts: any value, whether
    or not it can be read back. -/
inductive Writes (S : VersionSet J) (text : Bytes) : Prop where
  | mk {T : Versioned J} (hT : T.VERSION = S.newest) {x : T.Carrier} {d : Bytes} {j : Json}
      (hx : T.serialize x = .ok d) (hd : J.document d = some j)
      (hwrite : (WriteEnvelope.new x).toVec = .ok text) : Writes S text

/-- Whatever reads what was written reads an envelope of that version. -/
theorem Writes.isEnvelope {S S' : VersionSet J} {text : Bytes} (hwrite : Writes S text)
    {cx : S'.Context} {output : ReadOutput S'.Latest}
    (hread : S'.readJsonWith text cx = .ok output) :
    ∃ version data, IsEnvelope J.inRange text version data ∧
      versionNumber version.value = some S.newest := by
  obtain ⟨hT, hx, hd, hwrite⟩ := hwrite
  obtain rfl := Except.ok.inj ((WriteEnvelope.toVec_new hx).symm.trans hwrite)
  rename_i T x d j
  by_cases hnesting : j.nesting ≤ 126
  · obtain ⟨version, data, henv, hversion, -⟩ := envelopeText_isEnvelope T.VERSION hd hnesting
    exact ⟨version, data, henv, hT ▸ hversion⟩
  · -- nested too deep, it is not read at all
    obtain ⟨e, he⟩ := VersionSet.readJsonWith_envelopeText_nesting cx T.VERSION hd
      (not_le.1 hnesting)
    cases he.symm.trans hread

namespace Turns

variable {P} {bytes₀ bytes : Bytes} {releases : List ℕ}

/-- A release that reads an envelope needs a rewrite below its newest version. -/
theorem needsRewrite_iff {version data : Located Json} {v : UInt32} {k : ℕ}
    {output : ReadOutput (P.release k).Latest} (henv : IsEnvelope J.inRange bytes version data)
    (hversion : versionNumber version.value = some v)
    (hread : (P.accepted k).versionSet.readJson bytes = .ok output) :
    output.needsRewrite = true ↔ v < (P.accepted k).versionSet.newest := by
  obtain ⟨-, horigin, hlatest⟩ := (P.accepted k).readJson_output henv hversion hread
  simp only [ReadOutput.needsRewrite, horigin, hlatest, decide_eq_true_eq]

/-- What holds of the releases that wrote a document: each of them raised the version that was
    stored before, and where the document is read it is an envelope of what the last one knows. -/
structure Rising (P : Timeline J) (bytes₀ : Bytes) (releases : List ℕ) (bytes : Bytes) : Prop where
  rising : releases.Pairwise fun i j =>
    (P.accepted j).versionSet.newest < (P.accepted i).versionSet.newest
  above : ∀ envelope, Envelope.parse J bytes₀ = .ok envelope →
    ∀ i ∈ releases, envelope.version < (P.accepted i).versionSet.newest
  start : releases = [] → bytes = bytes₀
  stored : ∀ i ∈ releases.head?, Writes (P.accepted i).versionSet bytes

/-- The version that a release needs to raise is that of every release that wrote before. -/
theorem Rising.rewrite (hrising : Rising P bytes₀ releases bytes) (i : ℕ) {text : Bytes}
    {output : ReadOutput (P.release i).Latest}
    (hread : (P.accepted i).versionSet.readJson bytes = .ok output)
    (hneeds : output.needsRewrite = true) (hwrite : Writes (P.accepted i).versionSet text) :
    Rising P bytes₀ (i :: releases) text := by
  obtain ⟨hpairwise, habove, hstart, hstored⟩ := hrising
  have hlast : ∀ j ∈ releases,
      (P.accepted j).versionSet.newest < (P.accepted i).versionSet.newest := by
    cases releases with
    | nil => exact fun j hj => nomatch hj
    | cons k releases =>
      obtain ⟨version, data, henv, hversion⟩ := (hstored k rfl).isEnvelope hread
      have hk := (needsRewrite_iff henv hversion hread).1 hneeds
      intro j hj
      rcases List.mem_cons.1 hj with rfl | hj
      · exact hk
      · exact ((List.pairwise_cons.1 hpairwise).1 j hj).trans hk
  refine ⟨List.pairwise_cons.2 ⟨hlast, hpairwise⟩, fun envelope henvelope j hj => ?_,
    fun hnil => (nomatch hnil), fun k hk => ?_⟩
  · rcases List.mem_cons.1 hj with rfl | hj
    · cases releases with
      | nil =>
        obtain rfl := hstart rfl
        obtain ⟨version, data, henv, hversion⟩ := Envelope.exists_isEnvelope henvelope
        exact (needsRewrite_iff henv hversion hread).1 hneeds
      | cons k releases =>
        have hmem : k ∈ k :: releases := List.mem_cons_self ..
        exact (habove envelope henvelope k hmem).trans (hlast k hmem)
    · exact habove envelope henvelope j hj
  · obtain rfl := Option.some.inj hk
    exact hwrite

end Turns

end Timeline

end Declaration

end VersionedEnvelope
