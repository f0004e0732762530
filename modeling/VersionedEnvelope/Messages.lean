import VersionedEnvelope.ErrorChain
import VersionedEnvelope.Read
import VersionedEnvelope.Unambiguous

/-!
# Messages that tell errors apart

What a message of the crate says, and that it can be read back from the message.

* `debug_readBack` — a quoted name ends where its closing quote stands, whatever characters it has.
* `unknownFields_readBack` — the names that are shown, and the number of those that are not.
* `Content.text_injective` — a message is what it says.
* `ErrorRef.display_of_content` — an error displays what it says.
* `messages_tell_errors_apart` — two failed reads display the same exactly when they report the
  same.
-/

set_option autoImplicit false

namespace VersionedEnvelope

open Json Unambiguous

/-! ## Numbers -/

/-- A number is read back before anything but a digit. -/
theorem toDigits_readBack :
    ReadBack (Nat.toDigits 10) fun r => ∀ c ∈ r.head?, c.isDigit = false :=
  .of_run (toDigits_injective (by decide) (by decide)) fun _ _ hc =>
    Nat.isDigit_of_mem_toDigits (by decide) (by decide) hc

/-! ## Quoted names -/

/-- The characters that are escaped by a letter. -/
def letterEscapes : List (Char × Char) :=
  [('\x00', '0'), ('\t', 't'), ('\r', 'r'), ('\n', 'n'), ('\x5c', '\x5c'), ('\x22', '\x22')]

theorem letterEscapes_injective :
    ∀ p ∈ letterEscapes, ∀ q ∈ letterEscapes, p.2 = q.2 → p.1 = q.1 := by decide

theorem letterEscapes_ne_u : ∀ p ∈ letterEscapes, p.2 ≠ 'u' := by decide

/-- The number of a character, between braces. -/
def numberEscape (c : Char) : List Char :=
  '\x5c' :: 'u' :: '\x7b' :: (Nat.toDigits 16 c.toNat ++ ['\x7d'])

/-- Numbers between braces are read back. -/
theorem numberEscape_readBack : ReadBack numberEscape fun _ => True := by
  have hclose : ∀ i < 16, Nat.digitChar i ≠ '\x7d' := by decide
  have hdigits : ReadBack (fun c : Char => Nat.toDigits 16 c.toNat)
      fun r => ∀ x ∈ r.head?, (x != '\x7d') = false := by
    refine .of_run (fun c d h => Char.toNat_inj.1 (toDigits_injective (by decide) (by decide) h))
      fun c x hx => ?_
    obtain ⟨i, hi, rfl⟩ := mem_toDigits (by decide) _ x hx
    exact bne_iff_ne.2 (hclose i hi)
  exact (hdigits.trail ['\x7d'] fun r _ => by simp).lead ['\x5c', 'u', '\x7b']

/-- How many names are left out. -/
def hiddenText (hidden : Nat) : List Char :=
  (if hidden > 0 then ", and " ++ toString hidden ++ " more" else "").toList

theorem hiddenText_eq (hidden : Nat) :
    hiddenText hidden = if hidden > 0 then
      [',', ' ', 'a', 'n', 'd', ' '] ++ (Nat.toDigits 10 hidden ++ [' ', 'm', 'o', 'r', 'e'])
    else [] := by
  unfold hiddenText
  split_ifs
  · simp [Nat.toList_repr]
  · rfl

theorem hiddenText_injective : Function.Injective hiddenText := by
  intro n m h
  rw [hiddenText_eq, hiddenText_eq] at h
  rcases Nat.eq_zero_or_pos n with rfl | hn <;> rcases Nat.eq_zero_or_pos m with rfl | hm
  · rfl
  · rw [if_pos hm] at h
    cases h
  · rw [if_pos hn] at h
    cases h
  · rw [if_pos hn, if_pos hm] at h
    have hread := (toDigits_readBack.trail [' ', 'm', 'o', 'r', 'e'] (G := (· = []))
      fun r _ => by simp).lead [',', ' ', 'a', 'n', 'd', ' ']
    exact hread.injective rfl h

section Quoted

variable [Unicode]

/-- The three ways to write a character: by a letter, by its number, as it is. -/
theorem escapeDebug_cases (c : Char) :
    (∃ letter, (c, letter) ∈ letterEscapes ∧ (escapeDebug c).toList = ['\x5c', letter]) ∨
    (escapeDebug c).toList = numberEscape c ∨
    (c ≠ '\x5c' ∧ c ≠ '\x22' ∧ (escapeDebug c).toList = [c]) := by
  have hletter : ∀ d letter, (d, letter) ∈ letterEscapes → c.toNat = d.toNat →
      (c, letter) ∈ letterEscapes := fun d letter hd h => Char.toNat_inj.1 h ▸ hd
  have hnumber : (escapeUnicode c).toList = numberEscape c := by
    simp [escapeUnicode, numberEscape]
  have hplain : ∀ d : Char, c.toNat ≠ d.toNat → c ≠ d := fun d h hcd => h (hcd ▸ rfl)
  unfold escapeDebug
  split_ifs with h0 ht hr hn hb hq hg hp
  · exact .inl ⟨_, hletter '\x00' _ (by decide) h0, rfl⟩
  · exact .inl ⟨_, hletter '\t' _ (by decide) ht, rfl⟩
  · exact .inl ⟨_, hletter '\r' _ (by decide) hr, rfl⟩
  · exact .inl ⟨_, hletter '\n' _ (by decide) hn, rfl⟩
  · exact .inl ⟨_, hletter '\x5c' _ (by decide) hb, rfl⟩
  · exact .inl ⟨_, hletter '\x22' _ (by decide) hq, rfl⟩
  · exact .inr (.inl hnumber)
  · exact .inr (.inr ⟨hplain _ hb, hplain _ hq, String.toList_singleton c⟩)
  · exact .inr (.inl hnumber)

/-- **No two characters are escaped alike**, whatever follows them. -/
theorem escapeDebug_readBack : ReadBack (fun c => (escapeDebug c).toList) fun _ => True := by
  intro c d r s _ _ heq
  rcases escapeDebug_cases c with ⟨l, hl, hc⟩ | hc | ⟨hcb, -, hc⟩ <;>
    rcases escapeDebug_cases d with ⟨l', hl', hd⟩ | hd | ⟨hdb, -, hd⟩ <;>
    simp only [hc, hd] at heq
  · simp only [List.cons_append, List.nil_append, List.cons.injEq, true_and] at heq
    exact ⟨letterEscapes_injective _ hl _ hl' heq.1, heq.2⟩
  · exact absurd (List.cons.inj (List.cons.inj heq).2).1 (letterEscapes_ne_u _ hl)
  · exact absurd (List.cons.inj heq).1.symm hdb
  · exact absurd (List.cons.inj (List.cons.inj heq).2).1.symm (letterEscapes_ne_u _ hl')
  · exact numberEscape_readBack trivial trivial heq
  · exact absurd (List.cons.inj heq).1.symm hdb
  · exact absurd (List.cons.inj heq).1 hcb
  · exact absurd (List.cons.inj heq).1 hcb
  · exact List.cons.inj heq

/-- An escaped character does not start with a quote. -/
theorem escapeDebug_ne_quote (c : Char) (r s : List Char) :
    (escapeDebug c).toList ++ r ≠ '\x22' :: s := by
  intro heq
  rcases escapeDebug_cases c with ⟨l, hl, hc⟩ | hc | ⟨-, hq, hc⟩ <;> rw [hc] at heq
  · exact absurd (List.cons.inj heq).1 (by decide)
  · exact absurd (List.cons.inj heq).1 (by decide)
  · exact hq (List.cons.inj heq).1

theorem toList_debug (s : String) :
    (debug s).toList =
      ['\x22'] ++ (s.toList.flatMap (fun c => (escapeDebug c).toList) ++ ['\x22']) := by
  simp [debug, String.toList_join, List.flatMap_map]

/-- **A quoted name is read back**, whatever follows it: it ends at its closing quote. -/
theorem debug_readBack : ReadBack (fun s => (debug s).toList) fun _ => True := by
  have hbody : ReadBack (fun cs : List Char => cs.flatMap fun c => (escapeDebug c).toList)
      fun r => ∃ s, r = '\x22' :: s := by
    refine escapeDebug_readBack.list ?_ fun _ _ _ => trivial
    rintro c r _ ⟨s, rfl⟩
    exact escapeDebug_ne_quote c r s
  have hquoted := (hbody.trail ['\x22'] (G := fun _ => True) fun r _ => ⟨r, rfl⟩).lead
    ['\x22']
  simp only [toList_debug]
  exact hquoted.comp fun s t h => String.toList_inj.1 h

/-! ## Unknown fields -/

/-- The names, each but the first after a comma. -/
def namesText : List String → List Char
  | [] => []
  | name :: names => (debug name).toList ++
      names.flatMap fun name => [',', ' '] ++ (debug name).toList

theorem toList_fmtUnknownFields (names : Finset String) :
    (fmtUnknownFields names).toList =
      namesText (shownNames names) ++ hiddenText (hiddenNames names) := by
  have hlater : ∀ (names : List String) {k : Nat}, 0 < k →
      (names.zipIdx k).flatMap (fun p : String × Nat =>
        (if p.2 > 0 then ", " else "").toList ++ (debug p.1).toList) =
      names.flatMap fun name => [',', ' '] ++ (debug name).toList := by
    intro names
    induction names with
    | nil =>
      intro k _
      rfl
    | cons name names ih =>
      intro k hk
      rw [List.zipIdx_cons, List.flatMap_cons, List.flatMap_cons, ih (Nat.succ_pos k), if_pos hk]
      rfl
  unfold fmtUnknownFields
  simp only [String.toList_append, String.toList_join, List.flatMap_map]
  refine congrArg₂ (· ++ ·) ?_ rfl
  unfold shownNames
  cases names.sort.take MAX_UNKNOWN_FIELDS_SHOWN with
  | nil => rfl
  | cons name names =>
    rw [List.zipIdx_cons, List.flatMap_cons, namesText, hlater names (Nat.succ_pos 0)]
    rfl

/-- **The names that are shown and the number of those that are not are read back.** -/
theorem unknownFields_readBack {shown shown' : List String} {hidden hidden' : Nat}
    (h : namesText shown ++ hiddenText hidden = namesText shown' ++ hiddenText hidden') :
    shown = shown' ∧ hidden = hidden' := by
  have hlater : ReadBack (fun names : List String => names.flatMap fun name =>
      [',', ' '] ++ (debug name).toList) fun r => ∃ hidden, r = hiddenText hidden := by
    refine (debug_readBack.lead [',', ' ']).list ?_ fun _ _ _ => trivial
    rintro name r _ ⟨hidden, rfl⟩ heq
    rw [hiddenText_eq, toList_debug] at heq
    split_ifs at heq <;> simp at heq
  have hfirst : ∀ (name : String) (r : List Char) hidden,
      (debug name).toList ++ r ≠ hiddenText hidden := by
    intro name r hidden heq
    rw [hiddenText_eq, toList_debug] at heq
    split_ifs at heq <;> simp at heq
  cases shown with
  | nil =>
    cases shown' with
    | nil => exact ⟨rfl, hiddenText_injective h⟩
    | cons name' names' =>
      rw [namesText, namesText, List.append_assoc] at h
      exact absurd h.symm (hfirst _ _ _)
  | cons name names =>
    cases shown' with
    | nil =>
      rw [namesText, namesText, List.append_assoc] at h
      exact absurd h (hfirst _ _ _)
    | cons name' names' =>
      rw [namesText, namesText, List.append_assoc, List.append_assoc] at h
      obtain ⟨rfl, hrest⟩ := debug_readBack trivial trivial h
      obtain ⟨rfl, hhidden⟩ := hlater (a := names) (b := names') ⟨_, rfl⟩ ⟨_, rfl⟩ hrest
      exact ⟨rfl, hiddenText_injective hhidden⟩

end Quoted

/-! ## What a message says -/

/-- What a message says that a reader understands. -/
inductive Understood where
  | newest (latest : UInt32)
  | oldest (oldest : UInt32)
  | only (supported : List UInt32)

/-- What a message of the crate says. -/
inductive Content where
  | json
  | notAnEnvelope (reason : NotAnEnvelopeReason)
  | duplicateFields (fields : EnvelopeFieldSet)
  | unknownFields (shown : List String) (hidden : Nat)
  | version
  | unsupported (found : UInt32) (understood : Understood)
  | data (version : UInt32)
  | conversion (original fromVersion toVersion : UInt32)
  | preEnvelope (reason : NotAnEnvelopeReason)

/-- What a message is about: the words it starts with. -/
inductive Topic where
  | json
  | notAnEnvelope
  | duplicateFields
  | unknownFields
  | version
  | unsupported
  | data
  | conversion
  | preEnvelope

def Topic.lead : Topic → String
  | .json => "the input could not be parsed as JSON"
  | .notAnEnvelope => "the input is valid JSON, but not a versioned envelope: "
  | .duplicateFields => "the envelope has more than one `"
  | .unknownFields => "the envelope has fields other than `" ++ VERSION_FIELD ++ "` and `" ++
      VERSIONED_DATA_FIELD ++ "`: "
  | .version => "the envelope's `" ++ VERSION_FIELD ++ "` is not a valid version number " ++
      "(an integer from 0 to " ++ toString (UInt32.size - 1) ++ ")"
  | .unsupported => "the envelope's version is "
  | .data => "the envelope's `" ++ VERSIONED_DATA_FIELD ++ "` is not a version "
  | .conversion => "converting a version "
  | .preEnvelope => "the input is not a versioned envelope ("

/-- No two topics start alike. -/
theorem Topic.lead_apart {t t' : Topic} (h : t ≠ t') : Apart t.lead.toList t'.lead.toList := by
  refine apart_of_not_prefix ?_ ?_ <;> cases t <;> cases t' <;>
    first | exact absurd rfl h | decide

namespace Content

def topic : Content → Topic
  | .json => .json
  | .notAnEnvelope _ => .notAnEnvelope
  | .duplicateFields _ => .duplicateFields
  | .unknownFields _ _ => .unknownFields
  | .version => .version
  | .unsupported _ _ => .unsupported
  | .data _ => .data
  | .conversion _ _ _ => .conversion
  | .preEnvelope _ => .preEnvelope

/-- A version in a message. -/
def versionText (v : UInt32) : List Char := Nat.toDigits 10 v.toNat

def newestLead : String := ", but the newest version this reader understands is "

def oldestLead : String := ", but the oldest version this reader supports is "

def onlyLead : String := ", but this reader understands only versions "


/-- What follows the version that was found. -/
def understoodText : Understood → List Char
  | .newest latest => newestLead.toList ++ versionText latest
  | .oldest oldest => oldestLead.toList ++ versionText oldest
  | .only supported => onlyLead.toList ++ (VersionList.fmt supported).toList

def duplicateText : EnvelopeFieldSet → String
  | .version => VERSION_FIELD ++ "` field"
  | .data => VERSIONED_DATA_FIELD ++ "` field"
  | .versionAndData => VERSION_FIELD ++ "` field and more than one `" ++ VERSIONED_DATA_FIELD ++
      "` field"

/-- What follows the version that a conversion started from. -/
def conversionText (original fromVersion toVersion : UInt32) : List Char :=
  if original = fromVersion then
    " payload to version ".toList ++ (versionText toVersion ++ " failed".toList)
  else
    " payload failed at the step from version ".toList ++
      (versionText fromVersion ++ (" to version ".toList ++ versionText toVersion))

variable [Unicode]

/-- A message after its first words. -/
def body : Content → List Char
  | .json => []
  | .notAnEnvelope reason => reason.fmt.toList
  | .duplicateFields fields => (duplicateText fields).toList
  | .unknownFields shown hidden => namesText shown ++ hiddenText hidden
  | .version => []
  | .unsupported found understood => versionText found ++ understoodText understood
  | .data v => versionText v ++ " payload".toList
  | .conversion original fromVersion toVersion =>
    versionText original ++ conversionText original fromVersion toVersion
  | .preEnvelope reason =>
    reason.fmt.toList ++ "), and reading it as a pre-envelope document failed".toList

/-- The message. -/
def text (c : Content) : List Char := c.topic.lead.toList ++ c.body

/-! ## The message can be read back -/

omit [Unicode] in
theorem versionText_readBack :
    ReadBack versionText fun r => ∀ c ∈ r.head?, c.isDigit = false :=
  toDigits_readBack.comp fun _ _ h => UInt32.toNat_inj.1 h

omit [Unicode] in
theorem versionText_injective : Function.Injective versionText :=
  versionText_readBack.injective (by simp)

omit [Unicode] in
/-- A list of versions is read back as the numbers in its text. -/
theorem versionList_injective {versions versions' : List UInt32}
    (h : (VersionList.fmt versions).toList = (VersionList.fmt versions').toList) :
    versions = versions' := by
  have hnumbers : versions.map (·.toNat) = versions'.map (·.toNat) := by
    rw [← VersionList.numbers_fmt, ← VersionList.numbers_fmt, h]
  exact List.map_injective_iff.2 (fun _ _ h => UInt32.toNat_inj.1 h) hnumbers

omit [Unicode] in
theorem understoodText_injective : Function.Injective understoodText := by
  have hnewest : Apart newestLead.toList oldestLead.toList :=
    apart_of_not_prefix (by decide) (by decide)
  have hnewest' : Apart newestLead.toList onlyLead.toList :=
    apart_of_not_prefix (by decide) (by decide)
  have holdest : Apart oldestLead.toList onlyLead.toList :=
    apart_of_not_prefix (by decide) (by decide)
  intro u u' h
  cases u with
  | newest latest =>
    cases u' with
    | newest latest' => rw [versionText_injective (List.append_cancel_left h)]
    | oldest oldest' => exact absurd h (hnewest _ _)
    | only supported' => exact absurd h (hnewest' _ _)
  | oldest oldest =>
    cases u' with
    | newest latest' => exact absurd h.symm (hnewest _ _)
    | oldest oldest' => rw [versionText_injective (List.append_cancel_left h)]
    | only supported' => exact absurd h (holdest _ _)
  | only supported =>
    cases u' with
    | newest latest' => exact absurd h.symm (hnewest' _ _)
    | oldest oldest' => exact absurd h.symm (holdest _ _)
    | only supported' => rw [versionList_injective (List.append_cancel_left h)]

omit [Unicode] in
theorem fmt_injective {reason reason' : NotAnEnvelopeReason}
    (h : reason.fmt.toList = reason'.fmt.toList) :
    reason = reason' := by
  cases reason with
  | nonObjectRoot kind =>
    cases reason' with
    | nonObjectRoot kind' =>
      cases kind <;> cases kind' <;> first | rfl | exact absurd h (by decide)
    | missing fields' => cases kind <;> cases fields' <;> exact absurd h (by decide)
  | missing fields =>
    cases reason' with
    | nonObjectRoot kind' => cases fields <;> cases kind' <;> exact absurd h (by decide)
    | missing fields' =>
      cases fields <;> cases fields' <;> first | rfl | exact absurd h (by decide)

omit [Unicode] in
theorem duplicateText_injective : Function.Injective duplicateText := by
  intro fields fields' h
  cases fields <;> cases fields' <;> first | rfl | exact absurd h (by decide)

omit [Unicode] in
/-- A conversion that failed is read back with the version that it started from. -/
theorem conversionText_injective {original f f' t t' : UInt32}
    (h : conversionText original f t = conversionText original f' t') : f = f' ∧ t = t' := by
  have hlead : Apart " payload to version ".toList
      " payload failed at the step from version ".toList :=
    apart_of_not_prefix (by decide) (by decide)
  unfold conversionText at h
  split_ifs at h with hf hf' hf'
  · subst hf hf'
    have hread := versionText_readBack.trail " failed".toList (G := (· = []))
      fun r _ => by simp
    exact ⟨rfl, hread.injective rfl (List.append_cancel_left h)⟩
  · exact absurd h (hlead _ _)
  · exact absurd h.symm (hlead _ _)
  · have hread := versionText_readBack.prod (G := (· = []))
      ((versionText_readBack.mono (by simp)).lead " to version ".toList) fun t r _ => by simp
    have hpair : (f, t) = (f', t') := hread.injective rfl (List.append_cancel_left h)
    exact Prod.mk.inj hpair

omit [Unicode] in
theorem understoodText_endsRun (u : Understood) :
    ∀ c ∈ (understoodText u).head?, c.isDigit = false := by
  cases u <;> exact fun c hc => by cases hc; rfl

omit [Unicode] in
theorem conversionText_endsRun (original f t : UInt32) :
    ∀ c ∈ (conversionText original f t).head?, c.isDigit = false := by
  unfold conversionText
  split_ifs <;> exact fun c hc => by cases hc; rfl

/-- **A message is what it says**: two messages with the same text say the same. -/
theorem text_injective : Function.Injective text := by
  intro c c' h
  have htopic : c.topic = c'.topic := by
    by_contra hne
    exact Topic.lead_apart hne _ _ h
  have hbody : c.body = c'.body := by
    rw [text, text, htopic] at h
    exact List.append_cancel_left h
  cases c <;> cases c' <;> cases htopic
  · rfl
  · rw [fmt_injective hbody]
  · rw [duplicateText_injective (String.toList_inj.1 hbody)]
  · obtain ⟨rfl, rfl⟩ := unknownFields_readBack hbody
    rfl
  · rfl
  · obtain ⟨rfl, hunderstood⟩ := versionText_readBack (understoodText_endsRun _)
      (understoodText_endsRun _) hbody
    rw [understoodText_injective hunderstood]
  · rw [versionText_injective (List.append_cancel_right hbody)]
  · obtain ⟨rfl, hconversion⟩ := versionText_readBack (conversionText_endsRun _ _ _)
      (conversionText_endsRun _ _ _) hbody
    obtain ⟨rfl, rfl⟩ := conversionText_injective hconversion
    rfl
  · rw [fmt_injective (List.append_cancel_right hbody)]

end Content

/-! ## The errors -/

section Errors

def EnvelopeError.content {E : Type} : EnvelopeError E → Content
  | .json _ => .json
  | .notAnEnvelope reason => .notAnEnvelope reason
  | .duplicateFields fields => .duplicateFields fields
  | .unknownFields names => .unknownFields (shownNames names) (hiddenNames names)
  | .version _ => .version

/-- What the error says, where the list of supported versions is not empty. -/
def UnsupportedVersion.content (u : UnsupportedVersion) : Option Content :=
  match u.kind with
  | .ok (.newer latest) => some (.unsupported u.found (.newest latest))
  | .ok (.older oldest) => some (.unsupported u.found (.oldest oldest))
  | .ok .gap => some (.unsupported u.found (.only u.supported))
  | .panics _ => none
  | .hang => none

def ConversionFailed.content (e : ConversionFailed) : Content :=
  .conversion e.original e.fromVersion e.toVersion

def ReadError.content {E : Type} : ReadError E → Option Content
  | .envelope e => some e.content
  | .unsupportedVersion e => e.content
  | .data version _ => some (.data version)
  | .conversion e => some e.content

/-- What the message of an error says.  What `serde_json`, a conversion or a fallback displays is
    not the crate's, and attempts are listed under what `serde_json` displays. -/
def ErrorRef.content : ErrorRef → Option Content
  | .dyn _ => none
  | .envelope e => some e.content
  | .unsupportedVersion e => e.content
  | .conversion e => some e.content
  | .noMatchingVersion _ => none
  | .read e => e.content
  | .untagged (.json _) => some .json
  | .untagged (.noMatchingVersion _) => none
  | .untagged (.conversion e) => some e.content
  | .readOrFallback (.read e) => e.content
  | .readOrFallback (.fallback reason _) => some (.preEnvelope reason)
  | .readOrUntagged (.read e) => e.content
  | .readOrUntagged (.untagged reason _) => some (.preEnvelope reason)

theorem toList_version (v : UInt32) : (toString v).toList = Content.versionText v :=
  Nat.toList_repr

variable [Unicode]

theorem EnvelopeError.toList_fmt {E : Type} (e : EnvelopeError E) :
    e.fmt.toList = e.content.text := by
  cases e with
  | json source => exact (List.append_nil _).symm
  | notAnEnvelope reason => exact String.toList_append
  | duplicateFields fields =>
    have hfmt : (EnvelopeError.duplicateFields (E := E) fields).fmt =
        Topic.duplicateFields.lead ++ Content.duplicateText fields := by
      cases fields with
      | version => exact String.append_assoc
      | data => exact String.append_assoc
      | versionAndData =>
        have hassoc : ∀ a b c d e : String, a ++ b ++ c ++ d ++ e = a ++ (b ++ c ++ d ++ e) := by
          intro a b c d e
          simp only [String.append_assoc]
        exact hassoc _ _ _ _ _
    rw [hfmt, String.toList_append]
    rfl
  | unknownFields names =>
    have hfmt : (EnvelopeError.unknownFields (E := E) names).fmt =
        Topic.unknownFields.lead ++ fmtUnknownFields names := rfl
    rw [hfmt, String.toList_append, toList_fmtUnknownFields]
    rfl
  | version source => exact (List.append_nil _).symm

theorem UnsupportedVersion.fmt_of_content {u : UnsupportedVersion} {c : Content}
    (h : u.content = some c) : ∃ m, u.fmt = .ok m ∧ m.toList = c.text := by
  unfold content at h
  unfold fmt
  split at h
  · rename_i latest hkind
    cases h
    refine ⟨_, by rw [hkind]; rfl, ?_⟩
    simp only [String.toList_append, toList_version, List.append_assoc]
    rfl
  · rename_i oldest hkind
    cases h
    refine ⟨_, by rw [hkind]; rfl, ?_⟩
    simp only [String.toList_append, toList_version, List.append_assoc]
    rfl
  · rename_i hkind
    cases h
    refine ⟨_, by rw [hkind]; rfl, ?_⟩
    simp only [String.toList_append, toList_version, List.append_assoc]
    rfl
  · cases h
  · cases h

theorem ConversionFailed.toList_fmt (e : ConversionFailed) : e.fmt.toList = e.content.text := by
  have htext : e.content.text = Topic.conversion.lead.toList ++
      (Content.versionText e.original ++
        Content.conversionText e.original e.fromVersion e.toVersion) := rfl
  rw [htext, fmt, Content.conversionText]
  split_ifs with h
  · simp only [String.toList_append, toList_version, List.append_assoc, h]
    rfl
  · simp only [String.toList_append, toList_version, List.append_assoc]
    rfl

/-- The message for data that are no payload of their version. -/
theorem toList_data (version : UInt32) :
    ("the envelope's `" ++ VERSIONED_DATA_FIELD ++ "` is not a version " ++ toString version ++
      " payload").toList = (Content.data version).text := by
  rw [String.toList_append, String.toList_append, toList_version, List.append_assoc]
  rfl

theorem toList_fmtNotAnEnvelope (reason : NotAnEnvelopeReason) :
    (fmtNotAnEnvelope reason).toList = (Content.preEnvelope reason).text := by
  have hfmt : fmtNotAnEnvelope reason = Topic.preEnvelope.lead ++ reason.fmt ++
      "), and reading it as a pre-envelope document failed" := rfl
  rw [hfmt, String.toList_append, String.toList_append, List.append_assoc]
  rfl

theorem ErrorRef.display_of_own {e : ErrorRef} {m : String} (h : e.fmt = .own (.ok m)) :
    e.display = .ok m := by
  rw [display]
  split
  · rename_i message hmessage
    rw [h] at hmessage
    cases hmessage
    rfl
  · rename_i inner hinner
    rw [h] at hinner
    cases hinner

/-- **An error displays what it says.** -/
theorem ErrorRef.display_of_content {e : ErrorRef} {c : Content} (h : e.content = some c) :
    ∃ m, e.display = .ok m ∧ m.toList = c.text := by
  have henvelope : ∀ e : EnvelopeError DynError, ∃ m,
      (ErrorRef.envelope e).display = .ok m ∧ m.toList = e.content.text :=
    fun e => ⟨_, display_of_own rfl, e.toList_fmt⟩
  have hunsupported : ∀ {u : UnsupportedVersion}, u.content = some c → ∃ m,
      (ErrorRef.unsupportedVersion u).display = .ok m ∧ m.toList = c.text := by
    intro u hu
    obtain ⟨m, hm, htext⟩ := UnsupportedVersion.fmt_of_content hu
    exact ⟨m, display_of_own (congrArg Written.own hm), htext⟩
  have hconversion : ∀ e : ConversionFailed, ∃ m,
      (ErrorRef.conversion e).display = .ok m ∧ m.toList = e.content.text :=
    fun e => ⟨_, display_of_own rfl, e.toList_fmt⟩
  have hread : ∀ {e : ReadError DynError}, e.content = some c → ∃ m,
      (ErrorRef.read e).display = .ok m ∧ m.toList = c.text := by
    intro e he
    cases e with
    | envelope e => cases he; rw [display_of_delegate rfl]; exact henvelope e
    | unsupportedVersion u => rw [display_of_delegate rfl]; exact hunsupported he
    | data version source =>
      cases he
      exact ⟨_, display_of_own rfl, toList_data version⟩
    | conversion e => cases he; rw [display_of_delegate rfl]; exact hconversion e
  cases e with
  | dyn e => cases h
  | envelope e => cases h; exact henvelope e
  | unsupportedVersion u => exact hunsupported h
  | conversion e => cases h; exact hconversion e
  | noMatchingVersion e => cases h
  | read e => exact hread h
  | untagged e =>
    cases e with
    | json source => cases h; exact ⟨_, display_of_own rfl, (List.append_nil _).symm⟩
    | noMatchingVersion e => cases h
    | conversion e => cases h; rw [display_of_delegate rfl]; exact hconversion e
  | readOrFallback e =>
    cases e with
    | read e => rw [display_of_delegate rfl]; exact hread h
    | fallback reason source => cases h; exact ⟨_, display_of_own rfl, toList_fmtNotAnEnvelope _⟩
  | readOrUntagged e =>
    cases e with
    | read e => rw [display_of_delegate rfl]; exact hread h
    | untagged reason source => cases h; exact ⟨_, display_of_own rfl, toList_fmtNotAnEnvelope _⟩

/-- **Two errors display the same exactly when they say the same.** -/
theorem ErrorRef.display_eq_iff {e e' : ErrorRef} {c c' : Content} (h : e.content = some c)
    (h' : e'.content = some c') :
    ∃ m m', e.display = .ok m ∧ e'.display = .ok m' ∧ (m = m' ↔ c = c') := by
  obtain ⟨m, hm, htext⟩ := display_of_content h
  obtain ⟨m', hm', htext'⟩ := display_of_content h'
  refine ⟨m, m', hm, hm', ?_⟩
  rw [← String.toList_inj, htext, htext']
  exact Content.text_injective.eq_iff

end Errors

/-! ## What the reader reports -/

theorem UnsupportedVersion.exists_content {u : UnsupportedVersion} (h : u.supported ≠ []) :
    ∃ c, u.content = some c := by
  have holdest := List.head?_eq_some_head h
  have hlatest := List.getLast?_eq_some_getLast h
  unfold content kind
  simp only [holdest, hlatest, Exec.expect_some, Exec.ok_bind]
  split_ifs
  · exact ⟨_, rfl⟩
  · exact ⟨_, rfl⟩
  · exact ⟨_, rfl⟩

theorem ReadError.content_map {E F : Type} (f : E → F) (e : ReadError E) :
    (e.map f).content = e.content := by
  cases e with
  | envelope e => cases e <;> rfl
  | _ => rfl

namespace VersionSet

variable {J : SerdeJson} {S : VersionSet J} {bytes bytes' : Bytes} {cx cx' : S.Context}
  {e e' : ReadError J.Error}

/-- Every error of the reader has a message of the crate. -/
theorem exists_content (h : S.readJsonWith bytes cx = .err e) : ∃ c, e.content = some c := by
  rcases readJsonWith_err_cases h with
    ⟨e, -, rfl⟩ | ⟨envelope, -, ⟨-, rfl⟩ | ⟨-, ⟨_, rfl⟩ | ⟨_, rfl⟩⟩⟩
  · exact ⟨_, rfl⟩
  · exact UnsupportedVersion.exists_content S.versions_ne_nil
  · exact ⟨_, rfl⟩
  · exact ⟨_, rfl⟩

/-- **Two failed reads display the same exactly when they report the same**: the kind of the error,
    the versions it is about, the fields, the kind of the root, and the unknown fields that are
    shown with the number of those that are not.  Displaying an error of a reader never panics. -/
theorem messages_tell_errors_apart [Unicode] (display : J.Error → DynError)
    (h : S.readJsonWith bytes cx = .err e) (h' : S.readJsonWith bytes' cx' = .err e') :
    ∃ m m', (ErrorRef.read (e.map display)).display = .ok m ∧
      (ErrorRef.read (e'.map display)).display = .ok m' ∧ (m = m' ↔ e.content = e'.content) := by
  obtain ⟨c, hc⟩ := exists_content h
  obtain ⟨c', hc'⟩ := exists_content h'
  have hread : (ErrorRef.read (e.map display)).content = some c := (e.content_map display).trans hc
  have hread' : (ErrorRef.read (e'.map display)).content = some c' :=
    (e'.content_map display).trans hc'
  obtain ⟨m, m', hm, hm', hiff⟩ := ErrorRef.display_eq_iff hread hread'
  refine ⟨m, m', hm, hm', ?_⟩
  rw [hiff, hc, hc', Option.some.injEq]

/-- The tables on the printable characters of ASCII. -/
@[reducible] def asciiTables : Unicode := ⟨fun _ => false, fun c => 32 ≤ c.toNat ∧ c.toNat < 127⟩

theorem messages_tell_errors_apart_counter :
    ∃ m m', @ErrorRef.display asciiTables (.read (.unsupportedVersion ⟨5, [4]⟩)) = .ok m ∧
      @ErrorRef.display asciiTables (.read (.envelope (.notAnEnvelope (.nonObjectRoot .number)))) =
        .ok m' ∧
      (m = m' ↔ (ReadError.unsupportedVersion (E := Unit) ⟨5, [4]⟩).content =
        (ReadError.envelope (E := Unit) (.notAnEnvelope (.nonObjectRoot .number))).content) :=
  @messages_tell_errors_apart _ (Versioned.counter 4).versionSet
    (ascii "\x7b\"version\":5,\"versioned_data\":7\x7d") (ascii "7") () ()
    (.unsupportedVersion ⟨5, [4]⟩) (.envelope (.notAnEnvelope (.nonObjectRoot .number))) asciiTables
    (fun _ => .mk "" none) rfl rfl

end VersionSet

end VersionedEnvelope
