import VersionedEnvelope.Display
import VersionedEnvelope.Layering

/-!
# Chains of errors

`Display` and `Error` of the error types, and what a caller sees who walks `source`.  Here a
`serde_json::Error` is what it displays and its source.

* `Written` — a message, or that of another error, whose `Display` is called.
* `ErrorRef` — an error of any type.
* `ErrorRef.layering` — errors that hold errors; one that displays what it holds is transparent.
* `ErrorRef.chain_complete` — no cause is lost and none is reported twice.
-/

set_option autoImplicit false

namespace VersionedEnvelope

/-- `&dyn Error`. -/
inductive ErrorRef where
  | dyn (e : DynError)
  | envelope (e : EnvelopeError DynError)
  | unsupportedVersion (e : UnsupportedVersion)
  | conversion (e : ConversionFailed)
  | noMatchingVersion (e : NoMatchingVersion DynError)
  | read (e : ReadError DynError)
  | untagged (e : UntaggedError DynError)
  | readOrFallback (e : ReadOrFallbackError DynError)
  | readOrUntagged (e : ReadOrUntaggedError DynError)

/-- What `Display::fmt` does: it writes a message, or calls that of another error. -/
inductive Written where
  | own (message : Exec Empty String)
  | delegate (error : ErrorRef)

class Display (T : Type) where
  fmt : T → Written

class Error (T : Type) where
  source : T → Option ErrorRef := fun _ => none

/-- An error and its sources. -/
def DynError.chain : DynError → List DynError
  | .mk message none => [.mk message none]
  | .mk message (some source) => .mk message (some source) :: source.chain

/-! ## The two traits -/

instance : Display DynError where
  fmt | .mk message _ => .own (.ok message)

instance : Error DynError where
  source | .mk _ source => source.map .dyn

instance [Unicode] : Display (EnvelopeError DynError) where
  fmt e := .own (.ok e.fmt)

instance : Error (EnvelopeError DynError) where
  source
    | .json source | .version source => some (.dyn source)
    | .notAnEnvelope _ | .duplicateFields _ | .unknownFields _ => none

instance : Display UnsupportedVersion where
  fmt e := .own e.fmt

instance : Error UnsupportedVersion where

instance : Display ConversionFailed where
  fmt e := .own (.ok e.fmt)

instance : Error ConversionFailed where
  source e := some (.dyn e.source)

instance : Display (NoMatchingVersion DynError) where
  fmt e := .own (.ok e.fmt)

instance : Error (NoMatchingVersion DynError) where

instance [Unicode] : Display (ReadError DynError) where
  fmt
    | .envelope error => .delegate (.envelope error)
    | .unsupportedVersion error => .delegate (.unsupportedVersion error)
    | .data version _ => .own (.ok ("the envelope's `" ++ VERSIONED_DATA_FIELD ++
        "` is not a version " ++ toString version ++ " payload"))
    | .conversion error => .delegate (.conversion error)

instance : Error (ReadError DynError) where
  source
    | .envelope error => Error.source error
    | .unsupportedVersion error => Error.source error
    | .data _ source => some (.dyn source)
    | .conversion error => Error.source error

instance : Display (UntaggedError DynError) where
  fmt
    | .json _ => .own (.ok "the input could not be parsed as JSON")
    | .noMatchingVersion error => .delegate (.noMatchingVersion error)
    | .conversion error => .delegate (.conversion error)

instance : Error (UntaggedError DynError) where
  source
    | .json source => some (.dyn source)
    | .noMatchingVersion error => Error.source error
    | .conversion error => Error.source error

/-- The message for a document that is neither an envelope nor readable without one. -/
def fmtNotAnEnvelope (notAnEnvelope : NotAnEnvelopeReason) : String :=
  "the input is not a versioned envelope (" ++ notAnEnvelope.fmt ++
    "), and reading it as a pre-envelope document failed"

instance : Display (ReadOrFallbackError DynError) where
  fmt
    | .read error => .delegate (.read error)
    | .fallback notAnEnvelope _ => .own (.ok (fmtNotAnEnvelope notAnEnvelope))

instance : Error (ReadOrFallbackError DynError) where
  source
    | .read error => Error.source error
    | .fallback _ source => some (.dyn source)

instance : Display (ReadOrUntaggedError DynError) where
  fmt
    | .read error => .delegate (.read error)
    | .untagged notAnEnvelope _ => .own (.ok (fmtNotAnEnvelope notAnEnvelope))

instance : Error (ReadOrUntaggedError DynError) where
  source
    | .read error => Error.source error
    | .untagged _ source => some (.untagged source)

namespace ErrorRef

def fmt [Unicode] : ErrorRef → Written
  | .dyn e => Display.fmt e
  | .envelope e => Display.fmt e
  | .unsupportedVersion e => Display.fmt e
  | .conversion e => Display.fmt e
  | .noMatchingVersion e => Display.fmt e
  | .read e => Display.fmt e
  | .untagged e => Display.fmt e
  | .readOrFallback e => Display.fmt e
  | .readOrUntagged e => Display.fmt e

def source : ErrorRef → Option ErrorRef
  | .dyn e => Error.source e
  | .envelope e => Error.source e
  | .unsupportedVersion e => Error.source e
  | .conversion e => Error.source e
  | .noMatchingVersion e => Error.source e
  | .read e => Error.source e
  | .untagged e => Error.source e
  | .readOrFallback e => Error.source e
  | .readOrUntagged e => Error.source e

/-! ## What errors hold -/

/-- The one error that an error is about.  The errors of the attempts are none: they are part of
    a message. -/
def held : ErrorRef → Option ErrorRef
  | .dyn (.mk _ source) => source.map .dyn
  | .envelope (.json source) => some (.dyn source)
  | .envelope (.version source) => some (.dyn source)
  | .envelope (.notAnEnvelope _) => none
  | .envelope (.duplicateFields _) => none
  | .envelope (.unknownFields _) => none
  | .unsupportedVersion _ => none
  | .conversion e => some (.dyn e.source)
  | .noMatchingVersion _ => none
  | .read (.envelope e) => some (.envelope e)
  | .read (.unsupportedVersion e) => some (.unsupportedVersion e)
  | .read (.data _ source) => some (.dyn source)
  | .read (.conversion e) => some (.conversion e)
  | .untagged (.json source) => some (.dyn source)
  | .untagged (.noMatchingVersion e) => some (.noMatchingVersion e)
  | .untagged (.conversion e) => some (.conversion e)
  | .readOrFallback (.read e) => some (.read e)
  | .readOrFallback (.fallback _ source) => some (.dyn source)
  | .readOrUntagged (.read e) => some (.read e)
  | .readOrUntagged (.untagged _ source) => some (.untagged source)

/-- An error that is not one of the crate. -/
def dyn? : ErrorRef → Option DynError
  | .dyn e => some e
  | _ => none

theorem sizeOf_held {e inner : ErrorRef} (h : e.held = some inner) :
    sizeOf inner < sizeOf e := by
  cases e with
  | dyn e =>
    obtain ⟨message, source⟩ := e
    obtain ⟨source, rfl, rfl⟩ := Option.map_eq_some_iff.1 h
    simp only [dyn.sizeOf_spec, DynError.mk.sizeOf_spec, Option.some.sizeOf_spec]
    omega
  | envelope e => cases e <;> cases h <;> simp
  | unsupportedVersion e => cases h
  | conversion e =>
    cases h
    obtain ⟨original, fromVersion, toVersion, source⟩ := e
    simp only [dyn.sizeOf_spec, conversion.sizeOf_spec, ConversionFailed.mk.sizeOf_spec]
    omega
  | noMatchingVersion e => cases h
  | read e => cases e <;> cases h <;> simp
  | untagged e => cases e <;> cases h <;> simp
  | readOrFallback e => cases e <;> cases h <;> simp
  | readOrUntagged e => cases e <;> cases h <;> simp

variable [Unicode] {e inner : ErrorRef}

/-! ## Where `Display` and `source` agree -/

/-- An error that displays another is one of the crate that holds one of the crate, and it has the
    source of what it holds. -/
theorem of_delegate (h : e.fmt = .delegate inner) :
    e.held = some inner ∧ e.source = inner.source ∧ inner.dyn? = none := by
  cases e with
  | dyn e =>
    cases e
    cases h
  | envelope e => cases h
  | unsupportedVersion e => cases h
  | conversion e => cases h
  | noMatchingVersion e => cases h
  | read e => cases e <;> cases h <;> exact ⟨rfl, rfl, rfl⟩
  | untagged e => cases e <;> cases h <;> exact ⟨rfl, rfl, rfl⟩
  | readOrFallback e => cases e <;> cases h; exact ⟨rfl, rfl, rfl⟩
  | readOrUntagged e => cases e <;> cases h; exact ⟨rfl, rfl, rfl⟩

/-- The source of an error with a message of its own is what it holds. -/
theorem of_own {message : Exec Empty String} (h : e.fmt = .own message) : e.source = e.held := by
  cases e with
  | dyn e =>
    cases e
    rfl
  | envelope e => cases e <;> rfl
  | unsupportedVersion e => rfl
  | conversion e => rfl
  | noMatchingVersion e => rfl
  | read e => cases e <;> cases h; rfl
  | untagged e => cases e <;> cases h; rfl
  | readOrFallback e => cases e <;> cases h; rfl
  | readOrUntagged e => cases e <;> cases h; rfl

/-- What an error displays. -/
def display (e : ErrorRef) : Exec Empty String :=
  match _h : e.fmt with
  | .own message => message
  | .delegate inner => inner.display
termination_by sizeOf e
decreasing_by exact sizeOf_held (of_delegate _h).1

theorem display_of_delegate (h : e.fmt = .delegate inner) : e.display = inner.display := by
  rw [display]
  split
  · rename_i message hmessage
    rw [h] at hmessage
    cases hmessage
  · rename_i inner' hinner
    rw [h] at hinner
    cases hinner
    rfl

/-- An error that displays another. -/
def transparent (e : ErrorRef) : Bool :=
  match e.fmt with
  | .own _ => false
  | .delegate _ => true

theorem transparent_eq_true : e.transparent = true ↔ ∃ inner, e.fmt = .delegate inner := by
  unfold transparent
  cases e.fmt <;> simp

theorem transparent_eq_false : e.transparent = false ↔ ∃ message, e.fmt = .own message := by
  unfold transparent
  cases e.fmt <;> simp

/-- Errors in layers. -/
def layering : Layering ErrorRef where
  held := held
  source := source
  transparent := transparent
  held_descends := ⟨sizeOf, fun _ _ => sizeOf_held⟩
  source_of_visible h := by
    obtain ⟨message, hmessage⟩ := transparent_eq_false.1 h
    exact of_own hmessage
  source_of_transparent h := by
    obtain ⟨inner, hinner⟩ := transparent_eq_true.1 h
    exact ⟨inner, (of_delegate hinner).1, (of_delegate hinner).2.1⟩

/-- The error and all that it holds, from the outside in. -/
def layers (e : ErrorRef) : List ErrorRef := layering.layers e

/-- The errors that a caller sees who walks `source`. -/
def chain (e : ErrorRef) : List ErrorRef := layering.chain e

/-- The error whose message an error displays. -/
def shown (e : ErrorRef) : ErrorRef := layering.shown e

/-- The error of `serde_json`, of a conversion or of a fallback that an error comes from. -/
def underlying (e : ErrorRef) : Option DynError := e.layers.findSome? dyn?

omit [Unicode] in
theorem dyn?_eq_some {u : DynError} : e.dyn? = some u ↔ e = .dyn u := by
  cases e <;> simp [dyn?]

/-- Nothing transparent holds an error from outside the crate. -/
theorem transparent_of_held_dyn (h : e.held = some inner) (hdyn : inner.dyn?.isSome) :
    e.transparent = false := by
  cases ht : e.transparent with
  | false => rfl
  | true =>
    obtain ⟨inner', hinner⟩ := transparent_eq_true.1 ht
    obtain ⟨hheld, -, hnone⟩ := of_delegate hinner
    rw [h] at hheld
    cases hheld
    rw [hnone] at hdyn
    cases hdyn

/-- Outside the crate the chain is that of the error. -/
theorem chain_dyn (u : DynError) : (ErrorRef.dyn u).chain = u.chain.map .dyn := by
  match u with
  | .mk message none => exact Layering.walk_of_none _ rfl
  | .mk message (some source) =>
    have hstep : (ErrorRef.dyn (.mk message (some source))).chain =
        .dyn (.mk message (some source)) :: (ErrorRef.dyn source).chain :=
      Layering.walk_of_some _ rfl
    rw [hstep, chain_dyn source, DynError.chain, List.map_cons]

theorem display_of_transparent (ht : e.transparent = true) (h : e.held = some inner) :
    e.display = inner.display := by
  obtain ⟨inner', hinner⟩ := transparent_eq_true.1 ht
  rw [(of_delegate hinner).1] at h
  cases h
  exact display_of_delegate hinner

/-- **No cause is lost and none is reported twice.**  The chain of an error has one error for each
    layer that has a message of its own, from the outside in: what displays another error has the
    source of that error, and what has its own message has what it holds as its source.  The error
    that all comes from is in the chain once, with its own chain after it. -/
theorem chain_complete (e : ErrorRef) :
    (∀ inner, e.fmt = .delegate inner → e.source = inner.source ∧
      e.display = inner.display ∧ e.chain.map display = inner.chain.map display) ∧
    (∀ message, e.fmt = .own message → e.source = e.held) ∧
    (∀ n, e = .noMatchingVersion n → e.source = none) ∧
    e.chain.map shown = e.layers.filter (fun layer => !layer.transparent) ∧
    e.chain.map display =
      (e.layers.filter fun layer => !layer.transparent).map display ∧
    e.chain.Nodup ∧
    ∀ u, e.underlying = some u → ∃ before, e.chain = before ++ u.chain.map .dyn ∧
      ∀ error ∈ before, error.dyn? = none := by
  have hshown : e.chain.map shown = e.layers.filter (fun layer => !layer.transparent) :=
    layering.chain_map_shown e
  have hdisplay : ∀ error : ErrorRef, error.shown.display = error.display :=
    Layering.map_shown (L := layering) display_of_transparent
  refine ⟨fun inner h => ⟨(of_delegate h).2.1, display_of_delegate h, ?_⟩,
    fun message h => of_own h, ?_, hshown, ?_, Layering.walk_nodup _ e, fun u hu => ?_⟩
  · obtain ⟨rest, he, hinner⟩ := Layering.chain_of_transparent (L := layering)
      (transparent_eq_true.2 ⟨inner, h⟩) (of_delegate h).1
    rw [chain, chain, he, hinner, List.map_cons, List.map_cons, display_of_delegate h]
  · rintro n rfl
    rfl
  · rw [← hshown, List.map_map]
    exact List.map_congr_left fun error _ => (hdisplay error).symm
  · obtain ⟨before, b, hb, hchain, hbefore⟩ :=
      Layering.exists_chain_append (L := layering) transparent_of_held_dyn hu
    rw [dyn?_eq_some.1 hb] at hchain
    exact ⟨before, hchain.trans (congrArg _ (chain_dyn u)), hbefore⟩

end ErrorRef

end VersionedEnvelope
