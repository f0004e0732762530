import VersionedEnvelope.Declaration
import VersionedEnvelope.Verdict
import VersionedEnvelope.Write

/-!
# Writing and reading

A payload that is written in an envelope and read through a version set.

* `parse_of_fromSlice` — a payload parses inside an envelope as it does by itself.
* `write_read` — reading what was written at any version is climbing the declared conversions.
* `staged_migration` — converting part of the way, writing and reading again changes nothing.
* `rewrite_converges` — what any reader returned can be written and read back as it is, where it
  leaves room for an envelope; `rewrite_refused` — and what leaves none cannot.
-/

set_option autoImplicit false

namespace VersionedEnvelope

open Json Ladder

/-- `serde_json` writes the payload as `d` and reads it back from there. -/
def Versioned.Survives {J : SerdeJson} (T : Versioned J) (x : T.Carrier) (d : Bytes) : Prop :=
  T.serialize x = .ok d ∧ J.fromSlice T.seed d = .ok x

/-- A document that leaves room for the nesting level of an envelope. -/
def SerdeJson.FitsEnvelope (J : SerdeJson) (d : Bytes) : Prop :=
  ∃ j, J.document d = some j ∧ j.nesting ≤ 126

/-! ## The same text, the same payload -/

namespace VersionSet

variable {J : SerdeJson} {S : VersionSet J}

/-- **A payload parses inside an envelope as it does by itself.** -/
theorem parse_of_fromSlice (hparse : S.ParseContract) (hsame : S.SameText) {d t : Bytes}
    {j : Json} {c : Cursor} {v : UInt32} (hd : J.document d = some j) (hv : v ∈ S.VERSIONS)
    (ht : TextAt J.inRange (Cursor.fromSlice d) t) (hc : TextAt J.inRange c t) :
    (∀ x, J.fromSlice (S.parse v) d = .ok x → ∃ c', S.parse v c = .ok (x, c')) ∧
    (∀ e, J.fromSlice (S.parse v) d = .err e → ∃ e', S.parse v c = .err e') := by
  rw [fromSlice_of_document hd fun x c' r hj => hparse.oneValue hv hj]
  constructor
  · intro x hx
    obtain ⟨⟨x', c'⟩, hp, rfl⟩ : ∃ y, S.parse v (Cursor.fromSlice d) = .ok y ∧ y.1 = x := by
      cases hp : S.parse v (Cursor.fromSlice d) <;> rw [hp] at hx <;> cases hx
      exact ⟨_, rfl, rfl⟩
    exact hsame hv ht hc hp
  · intro e he
    have hsettles : (S.parse v c).Settles := by
      obtain ⟨j', r, hj, -⟩ := hc
      exact hparse.settles hv hj
    rcases hsettles.cases with ⟨⟨x, c'⟩, hp⟩ | ⟨e', hp⟩
    · obtain ⟨d', hp'⟩ := hsame hv hc ht hp
      rw [hp'] at he
      cases he
    · exact ⟨e', hp⟩

end VersionSet

/-- **A payload that survives by itself is read inside its envelope.** -/
theorem Versioned.Survives.seed_ok {J : SerdeJson} {T : Versioned J} {x : T.Carrier} {d t : Bytes}
    {c : Cursor} {j : Json} (hT : T.deserialize.SameText) (hx : T.Survives x d)
    (hd : J.document d = some j) (ht : TextAt J.inRange (Cursor.fromSlice d) t)
    (hc : TextAt J.inRange c t) : ∃ c', T.seed c = .ok (x, c') :=
  (VersionSet.parse_of_fromSlice T.versionSet_parseContract (T.versionSet_sameText hT) hd
    (List.mem_singleton_self T.VERSION) ht hc).1 x hx.2

/-- What the reference deserializer reads from a document. -/
theorem fromSlice_reference {inRange : Bytes → Bool} {T : Versioned (.reference inRange)}
    {f : Json → Option T.Carrier} (hT : T.deserialize = .reference inRange f) {d : Bytes}
    {j : Json} {x : T.Carrier} (hd : (SerdeJson.reference inRange).document d = some j)
    (hx : f j = some x) : (SerdeJson.reference inRange).fromSlice T.seed d = .ok x := by
  rw [fromSlice_of_document hd fun y c' r hj hy =>
    T.deserialize.oneValue hj (Exec.lift_eq_ok.1 hy)]
  obtain ⟨⟨j', r⟩, hread, hend⟩ := Option.bind_eq_some_iff.1 hd
  simp only [Option.ite_none_right_eq_some, Option.some.injEq] at hend
  obtain ⟨-, rfl⟩ := hend
  have hseed : T.seed (Cursor.fromSlice d) = .ok (x, (Cursor.fromSlice d).moveTo r) := by
    apply Exec.lift_eq_ok.2
    rw [hT]
    refine SerdeJson.orError_eq_ok.2 (Option.bind_eq_some_iff.2 ⟨_, hread, ?_⟩)
    simp only [hx, Option.map_some]
  rw [hseed, Exec.map_ok]

theorem document_decimal (n : UInt32) :
    (SerdeJson.reference fun _ => true).document (decimal n.toNat) =
      some (.number (decimal n.toNat)) := by
  have hread : readValue (fun _ => true) recursionLimit (decimal n.toNat ++ []) = _ :=
    readValue_decimal 127 (Nat.lt_trans n.toNat_lt (by decide)) follow_nil
  rw [List.append_nil] at hread
  exact Option.bind_eq_some_iff.2 ⟨_, hread, rfl⟩

/-- A counter survives by itself and in an envelope. -/
theorem Versioned.counter_survives (v n : UInt32) :
    (counter v).Survives n (decimal n.toNat) ∧
      (SerdeJson.reference fun _ => true).FitsEnvelope (decimal n.toNat) := by
  have hnumber : versionNumber (.number (decimal n.toNat)) = some n := by
    simp only [versionNumber, decimal_bareInteger, Option.bind_some, if_pos n.toNat_lt,
      UInt32.ofNat_toNat]
  exact ⟨⟨rfl, fromSlice_reference (T := counter v) rfl (document_decimal n) hnumber⟩,
    _, document_decimal n, by simp [nesting]⟩

/-! ## Declared version sets -/

namespace Declaration

variable {J : SerdeJson} {D : Declaration J} {var : D.Variant} {x : (D.payload var).Carrier}
  {d : Bytes}

/-- A payload that parses is read as its climb over the declared conversions. -/
theorem Accepted.readPayload_of_climbs (hD : D.Accepted) {v : UInt32} {c c' : Cursor}
    {y : D.Value} (hv : v ∈ D.VERSIONS) (hp : D.parse v c = .ok (y, c'))
    {r : Except (D.Value × UInt32 × DynError) D.Latest} (hr : Climbs D.conversion y r) :
    hD.versionSet.readPayload v c () = hD.versionSet.outcome v r := by
  obtain ⟨r', hr', hread⟩ := VersionSet.readPayload_of_ok (S := hD.versionSet) () hD.stepContract
    hv hp (parse_eq_ok hv hp).1
  rw [rung_eq hD.wellFormed] at hr'
  rw [hread, hr.unique hr']

theorem Accepted.exists_climbs (hD : D.Accepted) (y : D.Value) :
    ∃ r, Climbs D.conversion y r := by
  obtain ⟨r, hr⟩ := hD.stepContract.exists_climbs (S := hD.versionSet) () (x := y) (D.version_mem y)
  rw [rung_eq hD.wellFormed] at hr
  exact ⟨r, hr⟩

/-- Reading a written payload is climbing from it. -/
theorem Accepted.readJson_toVec (hD : D.Accepted)
    (hsame : (D.payload var).deserialize.SameText) (hx : (D.payload var).Survives x d)
    (hfits : J.FitsEnvelope d) :
    ∃ text r, (WriteEnvelope.new (T := D.payload var) x).toVec = .ok text ∧
      Climbs D.conversion ⟨var, x⟩ r ∧
      hD.versionSet.readJson text = hD.versionSet.outcome (D.versionOf var) r := by
  obtain ⟨j, hd, hnesting⟩ := hfits
  have hmem : D.versionOf var ∈ hD.versionSet.VERSIONS := D.versionOf_mem var
  obtain ⟨c, t, ht, hc, hread⟩ := VersionSet.readJsonWith_envelopeText
    (versionSet_parseContract hD.wellFormed) () (D.versionOf var) hd hnesting
  obtain ⟨c', hseed⟩ := hx.seed_ok hsame hd ht hc
  have hp : D.parse (D.versionOf var) c = .ok (⟨var, x⟩, c') := by
    rw [parse_versionOf hD.wellFormed, hseed]; rfl
  obtain ⟨r, hr⟩ := hD.exists_climbs ⟨var, x⟩
  rw [if_pos hmem, hD.readPayload_of_climbs hmem hp hr] at hread
  exact ⟨_, r, WriteEnvelope.toVec_new hx.1, hr, hread⟩

theorem lt_newest_iff (h : assertVersionSetWellFormed D.VERSIONS = .ok ()) :
    D.versionOf var < (D.versionSet h).newest ↔ D.variants.getLast? ≠ some var := by
  have hle : D.versionOf var ≤ (D.versionSet h).newest :=
    (D.versionSet h).le_newest (D.versionOf_mem var)
  rw [hle.lt_iff_ne, ne_eq, newest_eq_iff h]

/-- A variant that a declared conversion leads on from is not the newest. -/
theorem Accepted.lt_newest_of_next (hD : D.Accepted) {y z : D.Value}
    (h : D.conversion y = .next z) : D.versionOf y.1 < hD.versionSet.newest := by
  have hstep : hD.versionSet.step y () = .next z :=
    VersionSet.rung_eq_next.1 ((congrFun (rung_eq hD.wellFormed) y).trans h)
  have hforward := hD.stepContract.next (x := y) (D.version_mem y) hstep
  exact hforward.2.trans_le (hD.versionSet.le_newest hforward.1)

/-- **Write, then read: the upgrade.**  What is written at the version of any variant is read as
    the composition of the declared conversions from that variant. -/
theorem write_read (hD : D.Accepted) (hsame : (D.payload var).deserialize.SameText)
    (hx : (D.payload var).Survives x d) (hfits : J.FitsEnvelope d) :
    ∃ text r, (WriteEnvelope.new (T := D.payload var) x).toVec = .ok text ∧
      Climbs D.conversion ⟨var, x⟩ r ∧
      hD.versionSet.readJson text = (match r with
        | .ok l => .ok ⟨l, .envelope (D.versionOf var), hD.versionSet.newest⟩
        | .error (y, toVersion, source) =>
          .err (.conversion ⟨D.versionOf var, D.version y, toVersion, source⟩)) ∧
      ∀ output, hD.versionSet.readJson text = .ok output →
        (output.needsRewrite = true ↔ D.variants.getLast? ≠ some var) := by
  obtain ⟨text, r, hwrite, hr, hread⟩ := hD.readJson_toVec hsame hx hfits
  refine ⟨text, r, hwrite, hr, ?_, fun output houtput => ?_⟩
  · rw [hread]
    cases r <;> rfl
  · rw [hread] at houtput
    cases r with
    | ok l =>
      cases houtput
      exact decide_eq_true_iff.trans (lt_newest_iff hD.wellFormed)
    | error f => cases houtput

theorem write_read_counters : ∃ text,
    (WriteEnvelope.new (T := .counter 1) (7 : UInt32)).toVec = .ok text ∧
    counters_accepted.versionSet.readJson text = .ok ⟨(9 : UInt32), .envelope 1, 4⟩ := by
  obtain ⟨hx, hfits⟩ := Versioned.counter_survives 1 7
  have hx : (counters.payload .V1).Survives (7 : UInt32) _ := hx
  obtain ⟨text, r, hwrite, hr, hread, -⟩ := write_read counters_accepted
    (counters_sameText .V1) hx hfits
  have hclimb : Climbs counters.conversion ⟨.V1, (7 : UInt32)⟩ (.ok (9 : UInt32)) :=
    .next (b := ⟨.V3, (8 : UInt32)⟩) rfl (.next (b := ⟨.V4, (9 : UInt32)⟩) rfl (.top rfl))
  obtain rfl := hr.unique hclimb
  exact ⟨text, hwrite, hread⟩

/-- **Staged migration commutes with direct migration.**  Where conversions lead from one
    payload to another, reading the one and reading the other come to the same. -/
theorem staged_migration (hD : D.Accepted) (hsame : (D.payload var).deserialize.SameText)
    (hx : (D.payload var).Survives x d) (hfits : J.FitsEnvelope d) {var' : D.Variant}
    {y : (D.payload var').Carrier} {d' : Bytes} (hsame' : (D.payload var').deserialize.SameText)
    (hreach : Relation.TransGen (fun a b => D.conversion a = .next b) ⟨var, x⟩ ⟨var', y⟩)
    (hy : (D.payload var').Survives y d') (hfits' : J.FitsEnvelope d') :
    ∃ text text', (WriteEnvelope.new (T := D.payload var) x).toVec = .ok text ∧
      (WriteEnvelope.new (T := D.payload var') y).toVec = .ok text' ∧
      ((∃ output output' : ReadOutput D.Latest,
          hD.versionSet.readJson text = .ok output ∧ hD.versionSet.readJson text' = .ok output' ∧
          output.value = output'.value ∧ output.origin = .envelope (D.versionOf var) ∧
          output'.origin = .envelope (D.versionOf var') ∧
          (output.needsRewrite ≠ output'.needsRewrite → D.variants.getLast? = some var')) ∨
       (∃ fromVersion toVersion source,
          hD.versionSet.readJson text =
            .err (.conversion ⟨D.versionOf var, fromVersion, toVersion, source⟩) ∧
          hD.versionSet.readJson text' =
            .err (.conversion ⟨D.versionOf var', fromVersion, toVersion, source⟩))) := by
  obtain ⟨text, r, hwrite, hr, hread⟩ := hD.readJson_toVec hsame hx hfits
  obtain ⟨text', r', hwrite', hr', hread'⟩ := hD.readJson_toVec hsame' hy hfits'
  -- the two climbs meet at the second payload
  obtain rfl : r = r' := ((climbs_iff_of_reaches hreach.to_reflTransGen).1 hr).unique hr'
  refine ⟨text, text', hwrite, hwrite', ?_⟩
  cases r with
  | error f =>
    obtain ⟨z, toVersion, source⟩ := f
    exact .inr ⟨_, toVersion, source, hread, hread'⟩
  | ok l =>
    refine .inl ⟨_, _, hread, hread', rfl, rfl, rfl, fun hne => ?_⟩
    by_contra hlast
    obtain ⟨z, hz, -⟩ := Relation.TransGen.head'_iff.1 hreach
    refine hne ((decide_eq_true ?_).trans (decide_eq_true ?_).symm)
    · exact hD.lt_newest_of_next hz
    · exact (lt_newest_iff hD.wellFormed).2 hlast

theorem staged_migration_counters : ∃ text text' output output',
    (WriteEnvelope.new (T := .counter 1) (7 : UInt32)).toVec = .ok text ∧
    (WriteEnvelope.new (T := .counter 3) (8 : UInt32)).toVec = .ok text' ∧
    counters_accepted.versionSet.readJson text = .ok output ∧
    counters_accepted.versionSet.readJson text' = .ok output' ∧
    output.value = output'.value ∧ output.origin = .envelope 1 ∧ output'.origin = .envelope 3 := by
  obtain ⟨hx, hfits⟩ := Versioned.counter_survives 1 7
  obtain ⟨hy, hfits'⟩ := Versioned.counter_survives 3 8
  have hx : (counters.payload .V1).Survives (7 : UInt32) _ := hx
  have hy : (counters.payload .V3).Survives (8 : UInt32) _ := hy
  obtain ⟨text, text', hwrite, hwrite', ⟨output, output', hread, hread', hvalue, ho, ho', -⟩ |
    ⟨_, _, _, hfails, -⟩⟩ := staged_migration counters_accepted (counters_sameText .V1) hx hfits
      (counters_sameText .V3) (.single rfl) hy hfits'
  · exact ⟨text, text', output, output', hwrite, hwrite', hread, hread', hvalue, ho, ho'⟩
  · cases hwrite
    cases hfails

end Declaration

/-! ## The newest version -/

namespace VersionSet

variable {J : SerdeJson}

/-- `Latest` is the payload type `T` of the newest variant: that version is parsed as `T`, and is
    done as it is. -/
structure LatestIs (S : VersionSet J) (T : Versioned J) where
  carrier : S.Latest = T.Carrier
  version : T.VERSION = S.newest
  variant : T.Carrier → S.Value
  version_variant : ∀ x, S.version (variant x) = S.newest
  parse : ∀ c, S.parse S.newest c = (fun (x, c') => (variant x, c')) <$> T.seed c
  step : ∀ x cx, S.step (variant x) cx = .done (cast carrier.symm x)

variable {S : VersionSet J} {T : Versioned J} {x : T.Carrier} {d : Bytes}

/-- A value of the newest version is upgraded to itself. -/
theorem LatestIs.upgrade_eq (hS : S.LatestIs T) (x : T.Carrier) (cx : S.Context) :
    S.upgrade (hS.variant x) S.newest cx = .ok (cast hS.carrier.symm x) := by
  rw [upgrade_of_eq (hS.version_variant x)]
  apply Exec.loop_done
  simp [upgradeTurn, hS.step]

/-- **What survives by itself is written and read back as it is**, where it fits an envelope. -/
theorem LatestIs.readJsonWith_toVec (hS : S.LatestIs T) (hT : T.deserialize.SameText)
    (cx : S.Context) (hx : T.Survives x d) (hfits : J.FitsEnvelope d) :
    ∃ text, (WriteEnvelope.new x).toVec = .ok text ∧ S.readJsonWith text cx =
      .ok ⟨cast hS.carrier.symm x, .envelope S.newest, S.newest⟩ := by
  obtain ⟨j, hd, hnesting⟩ := hfits
  obtain ⟨version, data, henv, hv, t, ht, hc⟩ :=
    envelopeText_isEnvelope T.VERSION hd hnesting
  obtain ⟨c', hseed⟩ := hx.seed_ok hT hd ht hc
  rw [hS.version] at hv
  have hone : ∀ y c', S.parse S.newest (memberCursor (envelopeText T.VERSION d) data) =
      .ok (y, c') → c' = (memberCursor (envelopeText T.VERSION d) data).moveTo data.after := by
    intro y c₁ hp
    rw [hS.parse, hseed] at hp
    cases hp
    exact T.deserialize.oneValue henv.valueAt_data (Exec.lift_eq_ok.1 hseed)
  refine ⟨_, WriteEnvelope.toVec_new hx.1, ?_⟩
  rw [readJsonWith_of_isEnvelope cx henv hv fun _ => hone, if_pos S.newest_mem]
  exact readPayload_of_upgrade (by rw [hS.parse, hseed, Exec.map_ok]) (hS.upgrade_eq x cx)

/-- A bare payload of the newest version is read as it is. -/
theorem LatestIs.readUntaggedJsonWith_eq (hS : S.LatestIs T) (cx : S.Context) {j : Json}
    (hd : J.document d = some j) (hx : J.fromSlice T.seed d = .ok x) :
    S.readUntaggedJsonWith d cx =
      .ok ⟨cast hS.carrier.symm x, .untagged S.newest, S.newest⟩ := by
  have hversions : S.VERSIONS.reverse = S.newest :: S.VERSIONS.dropLast.reverse := by
    conv_lhs => rw [← List.dropLast_append_getLast S.versions_ne_nil, List.reverse_append]
    rfl
  have hparse : J.fromSlice (S.parse S.newest) d = .ok (hS.variant x) := by
    rw [J.fromSlice_map hS.variant (hS.parse _), hx, Exec.map_ok]
  rw [readUntaggedJsonWith_of_valid cx (validateJson_of_document hd), hversions]
  simp [tryVersions, hparse, hS.upgrade_eq, latestVersion_eq]

/-- What takes the last level of nesting is written in an envelope that no reader accepts. -/
theorem readJsonWith_envelopeText_nesting (cx : S.Context) (v : UInt32) {j : Json}
    (hd : J.document d = some j) (hnesting : 126 < j.nesting) :
    ∃ e, S.readJsonWith (envelopeText v d) cx = .err (.envelope (.json e)) := by
  obtain ⟨e, he⟩ := Envelope.parse_of_not_document (document_envelopeText v hd hnesting)
  exact ⟨e, readJsonWith_of_parse_err cx he⟩

end VersionSet

namespace Versioned

/-- A type read at a fixed version is its own latest type. -/
def versionSet_latestIs {J : SerdeJson} (T : Versioned J) : T.versionSet.LatestIs T where
  carrier := rfl
  version := rfl
  variant := id
  version_variant _ := rfl
  parse c := by
    cases h : T.seed c <;> simp [versionSet, h]
  step _ _ := rfl

/-! ## A payload of nested arrays -/

/-- `n` arrays around a `null`. -/
def nested : Nat → Bytes
  | 0 => ascii "null"
  | n + 1 => Byte.lbracket :: (nested n ++ [Byte.rbracket])

def nestedValue : Nat → Json
  | 0 => .null
  | n + 1 => .array [nestedValue n]

theorem nesting_nestedValue (n : Nat) : (nestedValue n).nesting = n := by
  induction n with
  | zero => simp [nestedValue, nesting]
  | succ n ih => simp [nestedValue, nesting, nestingElements, ih]

theorem nextElement_nested (n : Nat) (r : Bytes) :
    nextElement true (nested n ++ r) = some (some (), nested n ++ r) := by
  obtain ⟨b, r', hb, hws, hne⟩ : ∃ b r', nested n ++ r = b :: r' ∧ isWhitespace b = false ∧
      b ≠ Byte.rbracket := by
    cases n with
    | zero => exact ⟨_, _, rfl, by decide, by decide⟩
    | succ n => exact ⟨_, _, rfl, by decide, by decide⟩
  rw [hb, nextElement, nextItem, skipWs_cons hws]
  simp only [if_neg hne, if_true]
  rfl

theorem readValue_nested (inRange : Bytes → Bool) : ∀ {n d : Nat} (r : Bytes), n < d →
    readValue inRange d (nested n ++ r) = some (nestedValue n, r)
  | 0, d + 1, r, _ => by
    refine readValue_scalar (t := .null) ?_ rfl
    have hkeyword : keyword (ascii "null") (ascii "null" ++ r) = some r := by simp [keyword]
    change (keyword (ascii "null") (ascii "null" ++ r)).map (Token.null, ·) = _
    rw [hkeyword]
    rfl
  | n + 1, d + 1, r, h => by
    have htext : nested (n + 1) ++ r = Byte.lbracket :: (nested n ++ (Byte.rbracket :: r)) := by
      simp [nested]
    have hend : nextElement false (Byte.rbracket :: r) = some (none, Byte.rbracket :: r) :=
      nextItem_of_close (skipWs_cons (by decide) r)
    rw [htext]
    have helements : elements (readValue inRange d) (nested n ++ (Byte.rbracket :: r)) =
        some ([((), nestedValue n)], r) := by
      unfold elements
      rw [show (nested n ++ (Byte.rbracket :: r)).length + 1 = ((nested n).length + r.length) + 2 by
        simp; omega]
      refine collect_cons (nextElement_nested n _) (readValue_nested inRange _ (by omega)) ?_
      exact collect_nil hend (by rw [punct, skipWs_cons (by decide)]; rfl)
    exact readValue_array (by omega) (token_openArray_iff.2 (skipWs_cons (by decide) _)) helements

/-- A type that is written as nested arrays, and read from any value as its nesting. -/
def nest : Versioned (SerdeJson.reference fun _ => true) where
  Carrier := Nat
  typeName := "Nest"
  VERSION := 1
  serialize n := .ok (nested n)
  deserialize := .reference _ fun j => some j.nesting

theorem document_nested {n : Nat} (h : n < recursionLimit) :
    (SerdeJson.reference fun _ => true).document (nested n) = some (nestedValue n) := by
  have hread := readValue_nested (fun _ => true) [] h
  rw [List.append_nil] at hread
  exact Option.bind_eq_some_iff.2 ⟨_, hread, rfl⟩

theorem nest_survives {n : Nat} (h : n < recursionLimit) : nest.Survives n (nested n) :=
  ⟨rfl, fromSlice_reference (T := nest) (f := fun j => some j.nesting) rfl (document_nested h)
    (congrArg some (nesting_nestedValue n))⟩

end Versioned

/-! ## Rewriting -/

/-- **Rewriting after a read converges.**  Whatever reader returned the value: if it survives by
    itself, and as a document that fits an envelope, its envelope is read as the same value, of
    the newest version, and needs no rewrite. -/
theorem VersionSet.rewrite_converges {J : SerdeJson} {S : VersionSet J} {T : Versioned J}
    {x : T.Carrier} {d : Bytes} (hS : S.LatestIs T) (hT : T.deserialize.SameText)
    [Unique S.Context] (bytes : Bytes)
    (fallback : NotAnEnvelopeReason → Exec DynError S.Latest) {output : ReadOutput S.Latest}
    (_hread : S.readJson bytes = .ok output ∨ S.readUntaggedJson bytes = .ok output ∨
      S.readJsonOrUntagged bytes = .ok output ∨ S.readJsonOrElse bytes fallback = .ok output)
    (hx : cast hS.carrier output.value = x) (hsurvives : T.Survives x d)
    (hfits : J.FitsEnvelope d) :
    ∃ text rewritten, (WriteEnvelope.new x).toVec = .ok text ∧
      S.readJson text = .ok rewritten ∧ rewritten.value = output.value ∧
      rewritten.origin = .envelope S.newest ∧ rewritten.needsRewrite = false := by
  obtain ⟨text, hwrite, hread⟩ := hS.readJsonWith_toVec hT default hsurvives hfits
  refine ⟨text, _, hwrite, hread, ?_, rfl, decide_eq_false (lt_irrefl S.newest)⟩
  subst hx
  exact cast_cast _ _ _

/-- A counter that is one more each time it is done. -/
def Versioned.lifted : VersionSet (SerdeJson.reference fun _ => true) where
  Value := UInt32
  Latest := UInt32
  Context := Unit
  typeName := "Lifted"
  VERSIONS := [3]
  parse _ := (counter 3).seed
  version _ := 3
  step x _ := .done (x + 1)
  wellFormed := rfl

instance : Unique Versioned.lifted.Context := inferInstanceAs (Unique Unit)

theorem Versioned.lifted_stepContract : lifted.StepContract where
  next _ h := by cases h
  failed _ h := by cases h
  done _ _ := rfl

/-- **What a rewrite can lose.**  A bare payload nested 127 levels is read and survives by itself;
    its envelope is refused.  And a counter that changes when it is done is read as another one. -/
theorem Versioned.rewrite_refused :
    (∃ output text,
      nest.versionSet.readUntaggedJson (nested 127) = .ok output ∧
      nest.Survives output.value (nested 127) ∧
      (WriteEnvelope.new (T := nest) output.value).toVec = .ok text ∧
      ∃ e, nest.versionSet.readJson text = .err (.envelope (.json e))) ∧
    lifted.StepContract ∧ ∃ text,
      lifted.readJson (envelopeText 3 (decimal (7 : UInt32).toNat)) =
        .ok ⟨(8 : UInt32), .envelope 3, 3⟩ ∧
      (counter 3).Survives (8 : UInt32) (decimal (8 : UInt32).toNat) ∧
      (WriteEnvelope.new (T := counter 3) (8 : UInt32)).toVec = .ok text ∧
      lifted.readJson text = .ok ⟨(9 : UInt32), .envelope 3, 3⟩ := by
  constructor
  · have hsurvives := nest_survives (n := 127) (by decide)
    have hd := document_nested (n := 127) (by decide)
    have hread := nest.versionSet_latestIs.readUntaggedJsonWith_eq () hd hsurvives.2
    refine ⟨_, _, hread, hsurvives, WriteEnvelope.toVec_new hsurvives.1, ?_⟩
    exact VersionSet.readJsonWith_envelopeText_nesting _ _ hd (by rw [nesting_nestedValue]; decide)
  · obtain ⟨hsurvives, -⟩ := Versioned.counter_survives 3 8
    exact ⟨lifted_stepContract, _, rfl, hsurvives, WriteEnvelope.toVec_new hsurvives.1, rfl⟩

theorem Versioned.rewrite_converges_nest : ∃ text rewritten,
    (WriteEnvelope.new (T := nest) (126 : Nat)).toVec = .ok text ∧
    nest.versionSet.readJson text = .ok rewritten ∧ rewritten.value = (126 : Nat) ∧
    rewritten.needsRewrite = false := by
  have hsurvives := nest_survives (n := 126) (by decide)
  have hd := document_nested (n := 126) (by decide)
  have hread := nest.versionSet_latestIs.readUntaggedJsonWith_eq () hd hsurvives.2
  obtain ⟨text, rewritten, hwrite, hrewritten, hvalue, -, hneeds⟩ :=
    VersionSet.rewrite_converges nest.versionSet_latestIs
      (Deserialize.reference_sameText fun j => some j.nesting) (nested 126)
      (fun _ => .ok (0 : Nat)) (.inr (.inl hread)) rfl hsurvives
      ⟨_, hd, (nesting_nestedValue 126).le⟩
  exact ⟨text, rewritten, hwrite, hrewritten, hvalue, hneeds⟩

end VersionedEnvelope
