import Mathlib.Data.Finset.Sort
import Mathlib.Data.String.Basic
import VersionedEnvelope.DigitRuns
import VersionedEnvelope.Errors
import VersionedEnvelope.Grouping

/-!
# What the errors display

The messages that the errors write themselves.  The Unicode tables behind `{:?}` are a parameter.

* `VersionList.fmt`, `VersionList.numbers_fmt` — a list of versions, which can be read back.
* `NoMatchingVersion.groups`, `NoMatchingVersion.groups_partition` — the attempts under their
  messages: a partition, in order of first occurrence.
-/

set_option autoImplicit false

namespace VersionedEnvelope

/-- The tables of `char` that `char::escape_debug` looks at. -/
class Unicode where
  isGraphemeExtended : Char → Bool
  isPrintable : Char → Bool

/-- `char::escape_unicode`. -/
def escapeUnicode (c : Char) : String :=
  "\\u\x7b" ++ String.ofList (Nat.toDigits 16 c.toNat) ++ "\x7d"

/-- `char::escape_debug` as `{:?}` of a string uses it, which leaves single quotes. -/
def escapeDebug [Unicode] (c : Char) : String :=
  if c.toNat = 0 then "\\0"
  else if c.toNat = 9 then "\\t"
  else if c.toNat = 13 then "\\r"
  else if c.toNat = 10 then "\\n"
  else if c.toNat = 92 then "\\\\"
  else if c.toNat = 34 then "\\\""
  else if Unicode.isGraphemeExtended c then escapeUnicode c
  else if Unicode.isPrintable c then String.singleton c
  else escapeUnicode c

/-- `{:?}` of a string. -/
def debug [Unicode] (s : String) : String :=
  "\"" ++ String.join (s.toList.map escapeDebug) ++ "\""

/-- This keeps the message readable when a payload has many unknown fields. -/
def MAX_UNKNOWN_FIELDS_SHOWN : Nat := 8

def NotAnEnvelopeReason.fmt : NotAnEnvelopeReason → String
  | .nonObjectRoot kind =>
    let kind := match kind with
      | .null => "null"
      | .bool => "a boolean"
      | .number => "a number"
      | .string => "a string"
      | .array => "an array"
    "its root is " ++ kind ++ ", not an object"
  | .missing .version => "it is an object with no `" ++ VERSION_FIELD ++ "` field"
  | .missing .data => "it is an object with no `" ++ VERSIONED_DATA_FIELD ++ "` field"
  | .missing .versionAndData => "it is an object with neither a `" ++ VERSION_FIELD ++
      "` nor a `" ++ VERSIONED_DATA_FIELD ++ "` field"

/-- The names in order, as many as are shown, and how many are not. -/
def fmtUnknownFields [Unicode] (names : Finset String) : String :=
  let shown := (names.sort.take MAX_UNKNOWN_FIELDS_SHOWN).zipIdx.map fun (name, index) =>
    (if index > 0 then ", " else "") ++ debug name
  let hidden := names.card - MAX_UNKNOWN_FIELDS_SHOWN
  String.join shown ++ if hidden > 0 then ", and " ++ toString hidden ++ " more" else ""

/-- The names that are shown of a set. -/
def shownNames (names : Finset String) : List String :=
  names.sort.take MAX_UNKNOWN_FIELDS_SHOWN

/-- How many names are not shown. -/
def hiddenNames (names : Finset String) : Nat := names.card - MAX_UNKNOWN_FIELDS_SHOWN

def EnvelopeError.fmt {E : Type} [Unicode] : EnvelopeError E → String
  | .json _ => "the input could not be parsed as JSON"
  | .notAnEnvelope reason =>
    "the input is valid JSON, but not a versioned envelope: " ++ reason.fmt
  | .duplicateFields .version =>
    "the envelope has more than one `" ++ VERSION_FIELD ++ "` field"
  | .duplicateFields .data =>
    "the envelope has more than one `" ++ VERSIONED_DATA_FIELD ++ "` field"
  | .duplicateFields .versionAndData =>
    "the envelope has more than one `" ++ VERSION_FIELD ++ "` field and more than one `" ++
      VERSIONED_DATA_FIELD ++ "` field"
  | .unknownFields names =>
    "the envelope has fields other than `" ++ VERSION_FIELD ++ "` and `" ++
      VERSIONED_DATA_FIELD ++ "`: " ++ fmtUnknownFields names
  | .version _ =>
    "the envelope's `" ++ VERSION_FIELD ++ "` is not a valid version number " ++
      "(an integer from 0 to " ++ toString (UInt32.size - 1) ++ ")"

/-! ## Lists of versions -/

/-- What goes before the version at an index of a list. -/
def VersionList.separator (len index : Nat) : String :=
  if index > 0 then
    if index + 1 ≠ len then ", "
    else if len > 2 then ", and "
    else " and "
  else ""

def VersionList.fmt (versions : List UInt32) : String :=
  String.join <| versions.zipIdx.map fun (version, index) =>
    separator versions.length index ++ toString version

namespace VersionList

theorem separator_no_digits (len index : Nat) :
    ∀ c ∈ (separator len index).toList, c.isDigit = false := by
  unfold separator
  split_ifs <;> simp

theorem separator_ne_nil (len : Nat) {index : Nat} (h : 0 < index) :
    (separator len index).toList ≠ [] := by
  unfold separator
  rw [if_pos h]
  split_ifs <;> decide

/-- The text in pieces: each version after its separator. -/
def pieces (versions : List UInt32) : List (List Char × Nat) :=
  versions.zipIdx.map fun (version, index) =>
    ((separator versions.length index).toList, version.toNat)

theorem toList_fmt (versions : List UInt32) :
    (fmt versions).toList = (pieces versions).flatMap fun p => p.1 ++ Nat.toDigits 10 p.2 := by
  unfold fmt pieces
  rw [String.toList_join, List.flatMap_map, List.flatMap_map]
  refine congrArg (List.flatMap · _) (funext fun (version, index) => ?_)
  rw [String.toList_append]
  exact congrArg _ Nat.toList_repr

theorem pieces_map_snd (versions : List UInt32) :
    (pieces versions).map (·.2) = versions.map (·.toNat) := by
  unfold pieces
  conv_rhs => rw [← List.zipIdx_map_fst 0 versions]
  rw [List.map_map, List.map_map]
  rfl

/-- Every version but the first has something before it. -/
theorem pieces_tail_ne_nil (versions : List UInt32) :
    ∀ p ∈ (pieces versions).tail, p.1 ≠ [] := by
  cases versions with
  | nil =>
    intro p hp
    cases hp
  | cons v versions =>
    intro p hp
    unfold pieces at hp
    rw [List.zipIdx_cons, List.map_cons, List.tail_cons] at hp
    obtain ⟨⟨version, index⟩, hmem, rfl⟩ := List.mem_map.1 hp
    exact separator_ne_nil _ (List.le_snd_of_mem_zipIdx hmem)

/-- **The versions can be read back**: they are the numbers in the text. -/
theorem numbers_fmt (versions : List UInt32) :
    DigitRuns.numbers (fmt versions).toList = versions.map (·.toNat) := by
  have hdigits : ∀ p ∈ pieces versions, ∀ c ∈ p.1, c.isDigit = false := by
    intro p hp
    obtain ⟨⟨version, index⟩, -, rfl⟩ := List.mem_map.1 hp
    exact separator_no_digits _ _
  rw [toList_fmt, DigitRuns.numbers_flatMap hdigits (pieces_tail_ne_nil versions),
    pieces_map_snd]

example : fmt [1, 2, 4] = "1, 2, and 4" := by decide

end VersionList

def UnsupportedVersion.fmt (u : UnsupportedVersion) : Exec Empty String := do
  let found := "the envelope's version is " ++ toString u.found
  match ← u.kind with
  | .newer latest =>
    pure (found ++ ", but the newest version this reader understands is " ++ toString latest)
  | .older oldest =>
    pure (found ++ ", but the oldest version this reader supports is " ++ toString oldest)
  | .gap =>
    pure (found ++ ", but this reader understands only versions " ++ VersionList.fmt u.supported)

def ConversionFailed.fmt (e : ConversionFailed) : String :=
  if e.original = e.fromVersion then
    "converting a version " ++ toString e.fromVersion ++ " payload to version " ++
      toString e.toVersion ++ " failed"
  else
    "converting a version " ++ toString e.original ++ " payload failed at the step from version " ++
      toString e.fromVersion ++ " to version " ++ toString e.toVersion

/-! ## Attempts under their messages -/

/-- `to_string` of an error. -/
def DynError.message : DynError → String
  | .mk message _ => message

namespace NoMatchingVersion

/-- One turn of the loop over the attempts. -/
def addAttempt (groups : List (String × List UInt32)) (attempt : VersionAttempt DynError) :
    List (String × List UInt32) :=
  let message := attempt.error.message
  match groups.findIdx? fun (seen, _) => seen = message with
  | some index =>
    groups.modify index fun (seen, versions) => (seen, versions ++ [attempt.version])
  | none => groups ++ [(message, [attempt.version])]

def groups (e : NoMatchingVersion DynError) : List (String × List UInt32) :=
  e.attempts.foldl addAttempt []

def fmt (e : NoMatchingVersion DynError) : String :=
  "the input is not a payload of any version this reader understands:" ++
    String.join (e.groups.map fun (message, versions) =>
      let noun := if versions.length = 1 then "version" else "versions"
      "\n  - " ++ noun ++ " " ++ VersionList.fmt versions ++ ": " ++ message)

theorem addAttempt_eq (groups : List (String × List UInt32)) (attempt : VersionAttempt DynError) :
    addAttempt groups attempt = Grouping.add attempt.error.message attempt.version groups :=
  (Grouping.add_eq_findIdx? _ _ groups).symm

/-- The attempts as values under their messages. -/
def items (e : NoMatchingVersion DynError) : List (String × UInt32) :=
  e.attempts.map fun attempt => (attempt.error.message, attempt.version)

theorem groups_eq (e : NoMatchingVersion DynError) : e.groups = Grouping.groups e.items := by
  unfold groups Grouping.groups items
  rw [List.foldl_map]
  exact congrArg (List.foldl · [] e.attempts) (funext₂ addAttempt_eq)

theorem valuesOf_items (e : NoMatchingVersion DynError) (message : String) :
    Grouping.valuesOf message e.items =
      (e.attempts.filter fun attempt => attempt.error.message = message).map (·.version) := by
  unfold Grouping.valuesOf items
  rw [List.filter_map, List.map_map]
  rfl

/-- **Attempts are grouped by message**: after its first line the text has one line for each group,
    in order, with the versions of the group and the message.  Every message has one group, with
    the versions of its attempts in order, and the groups come in the order in which their messages
    occur first.  The versions can be read back from the list that is written for them. -/
theorem groups_partition (e : NoMatchingVersion DynError) :
    e.fmt = "the input is not a payload of any version this reader understands:" ++
        String.join (e.groups.map fun group =>
          "\n  - " ++ (if group.2.length = 1 then "version" else "versions") ++ " " ++
            VersionList.fmt group.2 ++ ": " ++ group.1) ∧
      (e.groups.map (·.1)).Nodup ∧
      (∀ g ∈ e.groups, g.2 =
        (e.attempts.filter fun attempt => attempt.error.message = g.1).map (·.version)) ∧
      (∀ message, message ∈ e.groups.map (·.1) ↔
        message ∈ e.attempts.map (·.error.message)) ∧
      (e.groups.map (·.1)).Pairwise (fun message message' =>
        (e.attempts.map (·.error.message)).idxOf message <
          (e.attempts.map (·.error.message)).idxOf message') ∧
      (e.groups.flatMap (·.2)).Perm (e.attempts.map (·.version)) ∧
      ∀ versions : List UInt32,
        DigitRuns.numbers (VersionList.fmt versions).toList = versions.map (·.toNat) := by
  have hmessages : e.items.map (·.1) = e.attempts.map (·.error.message) := by
    unfold items
    rw [List.map_map]
    rfl
  have hversions : e.items.map (·.2) = e.attempts.map (·.version) := by
    unfold items
    rw [List.map_map]
    rfl
  have hkeys : e.groups.map (·.1) = Grouping.distinct (e.attempts.map (·.error.message)) := by
    rw [groups_eq, Grouping.groups_eq, List.map_map, hmessages]
    exact List.map_id' _
  refine ⟨rfl, ?_, fun g hg => ?_, fun message => ?_, ?_, ?_, VersionList.numbers_fmt⟩
  · rw [hkeys]
    exact Grouping.distinct_nodup _
  · rw [groups_eq, Grouping.groups_eq] at hg
    obtain ⟨message, -, rfl⟩ := List.mem_map.1 hg
    exact valuesOf_items e message
  · rw [hkeys]
    exact Grouping.mem_distinct
  · rw [hkeys]
    exact Grouping.distinct_pairwise _
  · rw [groups_eq, ← hversions]
    exact Grouping.groups_perm _

end NoMatchingVersion

end VersionedEnvelope
