import VersionedEnvelope.SerdeJson

/-!
# Validation

`validate_json`: the bytes are driven through `deserialize_any`, with a visitor that takes
anything, as deserializing to `serde_json::Value` would.

* `forEach` — `while let Some(item) = access.next()? { .. }` over an array or object.
* `forEachTo_returns`, `forEachTo_ok` — the loop, with the closing bracket, returns what
  `Json.collect` reads.
* `Validated.deserialize_returns` — validation steps over what `Json.readValue` reads.
* `validateJson_returns` — the bytes are valid exactly when they are a document.
-/

set_option autoImplicit false

namespace VersionedEnvelope

open Json

section ForEach

variable {E σ κ α : Type}

/-- One turn of `while let Some(item) = access.next()? { .. }`. -/
def forEachTurn (next : Access → Except E (Option (κ × Cursor)))
    (entry : σ → κ → Cursor → Exec E (σ × Cursor)) :
    σ × Access → Exec E (Exec.Flow (σ × Access) (σ × Cursor)) := fun (s, access) => do
  match ← Exec.lift (next access) with
  | none => pure (.done (s, access.de))
  | some (item, de) => do
    let (s, de) ← entry s item de
    pure (.next (s, ⟨de, false⟩))

/-- The loop over an array or object: what is kept from turn to turn, and the deserializer
    after the last item. -/
def forEach (next : Access → Except E (Option (κ × Cursor)))
    (entry : σ → κ → Cursor → Exec E (σ × Cursor)) (s : σ) (access : Access) :
    Exec E (σ × Cursor) :=
  Exec.loop (forEachTurn next entry) (access.de.rest.length + 1) (s, access)

variable {next : Access → Except E (Option (κ × Cursor))}
  {entry : σ → κ → Cursor → Exec E (σ × Cursor)} {endAt : Cursor → Except E Cursor}
  {close : UInt8} {opens : Bytes → Option (κ × Bytes)} {value : Bytes → Option (α × Bytes)}
  {keep : σ → κ → α → σ} {d : Nat}

theorem forEachTurn_none {s : σ} {a : Access} (h : Exec.lift (next a) = .ok none) :
    forEachTurn next entry (s, a) = .ok (.done (s, a.de)) := by
  simp only [forEachTurn, h, Exec.ok_bind, Exec.pure_eq]

theorem forEachTurn_some (entry : σ → κ → Cursor → Exec E (σ × Cursor)) (s : σ) {a : Access}
    {item : κ} {de : Cursor} (h : Exec.lift (next a) = .ok (some (item, de))) :
    forEachTurn next entry (s, a) =
      (fun (s, de) => Exec.Flow.next (s, ⟨de, false⟩)) <$> entry s item de := by
  simp only [forEachTurn, h, Exec.ok_bind]
  cases entry s item de <;> rfl

theorem forEachTurn_error {s : σ} {a : Access} {e : E} (h : Exec.lift (next a) = .err e) :
    forEachTurn next entry (s, a) = .err e := by
  simp only [forEachTurn, h, Exec.err_bind]

/-- The loop, and the closing bracket. -/
def forEachTo (next : Access → Except E (Option (κ × Cursor)))
    (entry : σ → κ → Cursor → Exec E (σ × Cursor)) (endAt : Cursor → Except E Cursor) (n : Nat)
    (s : σ) (a : Access) : Exec E (σ × Cursor) := do
  let (s, de) ← Exec.loop (forEachTurn next entry) n (s, a)
  let de ← Exec.lift (endAt de)
  pure (s, de)

/-- **The loop returns what `collect` reads**, when each entry returns what `value` reads. -/
theorem forEachTo_returns (next : Access → Except E (Option (κ × Cursor)))
    (entry : σ → κ → Cursor → Exec E (σ × Cursor)) (keep : σ → κ → α → σ) (ho : Opens opens)
    (hv : Reads value)
    (hnext : ∀ a, (next a).toOption =
      (nextItem close opens a.first a.de.rest).map fun (k, r) => k.map (·, a.de.moveTo r))
    (hentry : ∀ s k de, de.remainingDepth = d →
      (entry s k de).Returns ((value de.rest).map fun (x, r) => (keep s k x, de.moveTo r)))
    (hend : ∀ de, (endAt de).toOption = (punct close de.rest).map de.leave) :
    ∀ (n : Nat) (s : σ) (a : Access), a.de.remainingDepth = d → a.de.rest.length < n →
      (forEachTo next entry endAt n s a).Returns
        ((collect (nextItem close opens) close value n a.first a.de.rest).map fun (xs, r) =>
          (xs.foldl (fun s (k, x) => keep s k x) s, a.de.leave r)) := by
  intro n
  induction n with
  | zero =>
    intro s a _ hlen
    exact absurd hlen (Nat.not_lt_zero _)
  | succ n ih =>
    intro s a hd hlen
    have hreturns := Exec.returns_lift (hnext a)
    unfold forEachTo collect
    rcases hn : nextItem close opens a.first a.de.rest with _ | ⟨_ | k, r⟩
    · rw [hn] at hreturns
      obtain ⟨e, he⟩ := hreturns.none
      rw [Exec.loop_err (forEachTurn_error he)]
      rfl
    · -- the items are over: the closing bracket is next
      rw [hn] at hreturns
      rw [Exec.loop_done (forEachTurn_none hreturns.some)]
      obtain ⟨rfl, r', hr'⟩ := nextItem_none hn
      have hclose := Exec.returns_lift (hend a.de)
      simp only [punct, hr', if_true, Option.map_some] at hclose
      have hskip : skipWs (close :: r') = close :: r' := skipWs_cons (skipWs_eq_cons hr') r'
      simp [punct, hr', hskip, hclose.some]
    · rw [hn] at hreturns
      have hturn := forEachTurn_some entry s hreturns.some
      have hlen_r := nextItem_length ho hn
      have hentry_s := hentry s k (a.de.moveTo r) hd
      simp only [Cursor.moveTo_rest] at hentry_s
      rcases hx : value r with _ | ⟨x, r'⟩
      · rw [hx] at hentry_s
        obtain ⟨e, he⟩ := hentry_s.none
        rw [he] at hturn
        simp [Exec.loop_err hturn, hx]
      · rw [hx] at hentry_s
        rw [hentry_s.some] at hturn
        have hlen_r' := hv.length_lt hx
        have ih := ih (keep s k x) ⟨a.de.moveTo r', false⟩ hd
          (by simp only [Cursor.moveTo_rest]; omega)
        rw [Exec.loop_next hturn]
        unfold forEachTo at ih
        simpa [hx, Option.map_map, Function.comp_def] using ih

/-- Where the items are there, the loop returns when each entry steps over its item. -/
theorem forEachTo_ok (next : Access → Except E (Option (κ × Cursor)))
    (entry : σ → κ → Cursor → Exec E (σ × Cursor)) (keep : σ → κ → α → σ)
    (hnext : ∀ a, (next a).toOption =
      (nextItem close opens a.first a.de.rest).map fun (k, r) => k.map (·, a.de.moveTo r))
    (hentry : ∀ s k de x r, de.remainingDepth = d → value de.rest = some (x, r) →
      entry s k de = .ok (keep s k x, de.moveTo r))
    (hend : ∀ de, (endAt de).toOption = (punct close de.rest).map de.leave) :
    ∀ {n : Nat} {s : σ} {a : Access} {xs : List (κ × α)} {r : Bytes}, a.de.remainingDepth = d →
      collect (nextItem close opens) close value n a.first a.de.rest = some (xs, r) →
      forEachTo next entry endAt n s a =
        .ok (xs.foldl (fun s (k, x) => keep s k x) s, a.de.leave r) := by
  intro n
  induction n with
  | zero =>
    intro s a xs r _ h
    cases h
  | succ n ih =>
    intro s a xs r hd h
    have hreturns := Exec.returns_lift (hnext a)
    unfold forEachTo
    rcases collect_cases h with ⟨rfl, r₀, hn, hp⟩ | ⟨k, x, ys, r₀, r₁, rfl, hn, hx, hrec⟩
    · rw [hn] at hreturns
      rw [Exec.loop_done (forEachTurn_none hreturns.some)]
      have hclose := Exec.returns_lift (hend a.de)
      obtain ⟨rfl, -⟩ := nextItem_none hn
      rw [show punct close a.de.rest = some r by
        rw [← hp]; simp only [punct, skipWs_skipWs]] at hclose
      simp [hclose.some]
    · rw [hn] at hreturns
      have hturn := forEachTurn_some entry s hreturns.some
      rw [hentry s k (a.de.moveTo r₀) x r₁ hd hx] at hturn
      rw [Exec.loop_next hturn]
      have ih := ih (s := keep s k x) (a := ⟨a.de.moveTo r₁, false⟩) hd hrec
      unfold forEachTo at ih
      simpa using ih

/-- **Two walks in step**: each entry of one is the image of an entry of the other, so the walks
    are.  The entries are run at one depth. -/
theorem forEach_map {τ : Type} (next : Access → Except E (Option (κ × Cursor)))
    {entry : σ → κ → Cursor → Exec E (σ × Cursor)} {entry' : τ → κ → Cursor → Exec E (τ × Cursor)}
    (π : σ → τ)
    (hnext : ∀ a item de, next a = .ok (some (item, de)) →
      de.remainingDepth = a.de.remainingDepth)
    (hdepth : ∀ s k de s' de', de.remainingDepth = d → entry s k de = .ok (s', de') →
      de'.remainingDepth = d)
    (hentry : ∀ s k de, de.remainingDepth = d →
      entry' (π s) k de = Prod.map π id <$> entry s k de)
    (s : σ) (a : Access) (ha : a.de.remainingDepth = d) :
    forEach next entry' (π s) a = Prod.map π id <$> forEach next entry s a := by
  refine Exec.loop_map (Prod.map π id) (Prod.map π id)
    (I := fun t => t.2.de.remainingDepth = d) (fun (s, a) ha => ?_) (fun (s, a) t ha h => ?_)
    _ (s, a) ha
  · show forEachTurn next entry' (π s, a) = _
    rcases hn : next a with e | _ | ⟨item, de⟩
    · have he : Exec.lift (next a) = .err e := by rw [hn, Exec.lift_error]
      rw [forEachTurn_error he, forEachTurn_error he, Exec.map_err]
    · have ho : Exec.lift (next a) = .ok none := by rw [hn, Exec.lift_ok]
      rw [forEachTurn_none ho, forEachTurn_none ho]
      rfl
    · have ho : Exec.lift (next a) = .ok (some (item, de)) := by rw [hn, Exec.lift_ok]
      have hde : de.remainingDepth = d := (hnext a item de hn).trans ha
      rw [forEachTurn_some entry' _ ho, forEachTurn_some entry _ ho, hentry s item de hde]
      cases entry s item de <;> rfl
  · rcases hn : next a with e | _ | ⟨item, de⟩
    · rw [forEachTurn_error (e := e) (by rw [hn, Exec.lift_error])] at h
      cases h
    · rw [forEachTurn_none (by rw [hn, Exec.lift_ok])] at h
      cases h
    · have hde : de.remainingDepth = d := (hnext a item de hn).trans ha
      have ho : Exec.lift (next a) = .ok (some (item, de)) := by rw [hn, Exec.lift_ok]
      rw [forEachTurn_some entry s ho] at h
      cases he : entry s item de with
      | ok y =>
        rw [he] at h
        cases h
        exact hdepth s item de y.1 y.2 hde he
      | err e => rw [he] at h; cases h
      | panics m => rw [he] at h; cases h
      | hang => rw [he] at h; cases h

/-- A walk panics in one of its entries only. -/
theorem forEach_ne_panics {next : Access → Except E (Option (κ × Cursor))}
    {entry : σ → κ → Cursor → Exec E (σ × Cursor)} {m : String}
    (hentry : ∀ s k de, entry s k de ≠ .panics m) (s : σ) (a : Access) :
    forEach next entry s a ≠ .panics m := by
  refine Exec.loop_ne_panics (fun (s, a) h => ?_) _ _
  rcases Exec.bind_eq_panics h with hn | ⟨o, -, h⟩
  · exact Exec.lift_ne_panics _ _ hn
  · cases o with
    | none => cases h
    | some y =>
      rcases Exec.bind_eq_panics h with he | ⟨t, -, h⟩
      · exact hentry _ _ _ he
      · cases h

end ForEach

/-! ## The visitor that takes anything -/

namespace Validated

variable (J : SerdeJson)

/-- `ValidatedVisitor::visit_seq`, with a deserializer of the elements. -/
def visitSeq (element : J.Seed Unit) (seq : Access) : Exec J.Error (Unit × Cursor) :=
  forEach (fun seq => (J.nextElement seq).map (·.map ((), ·))) (fun _ () de => element de) () seq

/-- `ValidatedVisitor::visit_map`, with a deserializer of the values.  Any string is a key. -/
def visitMap (value : J.Seed Unit) (map : Access) : Exec J.Error (Unit × Cursor) :=
  forEach J.nextKey (fun _ _ de => do
    let de ← Exec.lift (J.nextValue de)
    value de) () map

/-- `Validated::deserialize`, on a call stack of `d` frames. -/
def deserialize : Nat → J.Seed Unit
  | 0, _ => .hang
  | d + 1, de => do
    let (visit, de) ← Exec.lift (J.deserializeAny de)
    match visit with
    | .unit | .bool _ | .i64 _ | .u64 _ | .f64 _ | .str _ => pure ((), de)
    | .seq => do
      let ((), de) ← visitSeq J (deserialize d) ⟨de, true⟩
      let de ← Exec.lift (J.endSeq de)
      pure ((), de)
    | .map => do
      let ((), de) ← visitMap J (deserialize d) ⟨de, true⟩
      let de ← Exec.lift (J.endMap de)
      pure ((), de)

/-- What validation returns where a value is read. -/
def reading (c : Cursor) : Option (Unit × Cursor) :=
  (readValue J.inRange c.remainingDepth c.rest).map fun (_, r) => ((), c.moveTo r)

variable {J}

theorem visitSeq_returns {element : J.Seed Unit} {k : Nat}
    (helement : ∀ de, de.remainingDepth = k → (element de).Returns (reading J de)) (de : Cursor)
    (hde : de.remainingDepth = k) :
    (visitSeq J element ⟨de, true⟩ >>= fun ((), de) => do
      let de ← Exec.lift (J.endSeq de)
      pure ((), de)).Returns
    ((elements (readValue J.inRange k) de.rest).map fun (_, r) => ((), de.leave r)) := by
  refine (forEachTo_returns (fun seq => (J.nextElement seq).map (·.map ((), ·)))
    (fun _ () de => element de) (fun _ _ _ => ()) openElement_opens (readValue_reads k)
    (fun seq => ?_) (fun _ _ de hde => ?_) J.endSeq_reads _ () ⟨de, true⟩ hde
    (Nat.lt_succ_self _) :)
  · rw [Exec.toOption_map, J.nextElement_reads seq, Option.map_map]
    congr 1
    funext ⟨k, r⟩
    cases k <;> rfl
  · have h := helement de hde
    rwa [reading, hde] at h

/-- What validation returns where a member's value is read, after the colon. -/
theorem memberValue_returns (value : J.Seed Unit) {k : Nat}
    (hvalue : ∀ de, de.remainingDepth = k → (value de).Returns (reading J de)) (de : Cursor)
    (hde : de.remainingDepth = k) :
    (Exec.lift (J.nextValue de) >>= value).Returns
      ((memberValue (readValue J.inRange k) de.rest).map fun (_, r) => ((), de.moveTo r)) := by
  have hcolon := Exec.returns_lift (J.nextValue_reads de)
  unfold memberValue
  cases hp : punct Byte.colon de.rest with
  | none =>
    rw [hp] at hcolon
    obtain ⟨e, he⟩ := hcolon.none
    simp [he]
  | some r =>
    rw [hp] at hcolon
    have h := hvalue (de.moveTo r) hde
    simp only [reading, Cursor.moveTo_remainingDepth, hde, Cursor.moveTo_rest,
      Cursor.moveTo_moveTo] at h
    simpa [hcolon.some] using h

theorem visitMap_returns {value : J.Seed Unit} {k : Nat}
    (hvalue : ∀ de, de.remainingDepth = k → (value de).Returns (reading J de)) (de : Cursor)
    (hde : de.remainingDepth = k) :
    (visitMap J value ⟨de, true⟩ >>= fun ((), de) => do
      let de ← Exec.lift (J.endMap de)
      pure ((), de)).Returns
    ((members (readValue J.inRange k) de.rest).map fun (_, r) => ((), de.leave r)) :=
  (forEachTo_returns J.nextKey (fun _ _ de => Exec.lift (J.nextValue de) >>= value)
    (fun _ _ _ => ()) openKey_opens (memberValue_reads (readValue_reads k)) J.nextKey_reads
    (fun _ _ de hde => memberValue_returns value hvalue de hde) J.endMap_reads _ () ⟨de, true⟩ hde
    (Nat.lt_succ_self _) :)

/-- **Validation steps over what is read as a value**, and refuses the rest. -/
theorem deserialize_returns : ∀ (d : Nat) (c : Cursor), 0 < c.remainingDepth →
    c.remainingDepth ≤ d → (deserialize J d c).Returns (reading J c) := by
  intro d
  induction d with
  | zero =>
    intro c hpos hle
    exact absurd (Nat.lt_of_lt_of_le hpos hle) (Nat.lt_irrefl 0)
  | succ d ih =>
    intro c hpos hle
    obtain ⟨k, hk⟩ : ∃ k, c.remainingDepth = k + 1 := ⟨c.remainingDepth - 1, by omega⟩
    have hvisit := Exec.returns_lift (J.deserializeAny_reads c)
    have hread := readValue_of_visit J.inRange k c.rest
    unfold deserialize reading
    rw [hk]
    unfold Cursor.visit at hvisit
    rcases hv : Json.visit J.inRange c.rest with _ | ⟨v, r⟩
    · rw [hv] at hvisit hread
      obtain ⟨e, he⟩ := hvisit.none
      simp only at hread
      simp [he, hread]
    · rw [hv] at hvisit hread
      -- inside an array or object: one level less
      have hinner : k ≠ 0 → ∀ de, de.remainingDepth = k →
          (deserialize J d de).Returns (reading J de) := by
        intro hk0 de hde
        exact ih de (by omega) (by omega)
      have hdepth : (c.enter r).remainingDepth = k := by simp [hk]
      cases v with
      | seq =>
        simp only at hread hvisit
        by_cases hk0 : k = 0
        · obtain ⟨e, he⟩ := (if_pos (show c.remainingDepth ≤ 1 by omega) ▸ hvisit).none
          rw [if_pos hk0] at hread
          simp [he, hread]
        · rw [if_neg (by omega)] at hvisit
          have h := visitSeq_returns (hinner hk0) (c.enter r) hdepth
          simp only [hread, if_neg hk0, hvisit.some, Exec.ok_bind, Option.map_map]
          simpa [Function.comp_def, Cursor.leave_enter hpos] using h
      | map =>
        simp only at hread hvisit
        by_cases hk0 : k = 0
        · obtain ⟨e, he⟩ := (if_pos (show c.remainingDepth ≤ 1 by omega) ▸ hvisit).none
          rw [if_pos hk0] at hread
          simp [he, hread]
        · rw [if_neg (by omega)] at hvisit
          have h := visitMap_returns (hinner hk0) (c.enter r) hdepth
          simp only [hread, if_neg hk0, hvisit.some, Exec.ok_bind, Option.map_map]
          simpa [Function.comp_def, Cursor.leave_enter hpos] using h
      | _ =>
        obtain ⟨j, hj⟩ := hread
        simp [hvisit.some, hj]

end Validated

/-- `validate_json`. -/
def validateJson (J : SerdeJson) (bytes : Bytes) : Exec J.Error Unit :=
  J.fromSlice (fun de => Validated.deserialize J de.remainingDepth de) bytes

/-- `serde_json::from_slice`, for a seed that returns what is read. -/
theorem fromSlice_returns {J : SerdeJson} {α : Type} {seed : J.Seed α} {bytes : Bytes}
    {o : Option (α × Bytes)}
    (h : (seed (Cursor.fromSlice bytes)).Returns
      (o.map fun (x, r) => (x, (Cursor.fromSlice bytes).moveTo r))) :
    (J.fromSlice seed bytes).Returns
      (o.bind fun (x, r) => if skipWs r = [] then some x else none) := by
  unfold SerdeJson.fromSlice
  cases o with
  | none =>
    obtain ⟨e, he⟩ := h.none
    simp [he]
  | some y =>
    obtain ⟨x, r⟩ := y
    have hend := Exec.returns_lift (J.endInput_reads ((Cursor.fromSlice bytes).moveTo r))
    rw [h.some]
    by_cases hr : skipWs r = []
    · rw [Cursor.moveTo_rest, if_pos hr] at hend
      simp [hend.some, hr]
    · rw [Cursor.moveTo_rest, if_neg hr] at hend
      obtain ⟨e, he⟩ := hend.none
      simp [he, hr]

/-- On a document, the result is what the seed makes of its value, when it takes one value. -/
theorem fromSlice_of_document {J : SerdeJson} {α : Type} {seed : J.Seed α} {bytes : Bytes}
    {j : Json} (h : J.document bytes = some j)
    (hone : ∀ x c' r, ValueAt J.inRange (Cursor.fromSlice bytes) j r →
      seed (Cursor.fromSlice bytes) = .ok (x, c') → c' = (Cursor.fromSlice bytes).moveTo r) :
    J.fromSlice seed bytes = (·.1) <$> seed (Cursor.fromSlice bytes) := by
  obtain ⟨⟨j', r⟩, hread, hend⟩ := Option.bind_eq_some_iff.1 h
  simp only [Option.ite_none_right_eq_some, Option.some.injEq] at hend
  obtain ⟨hr, rfl⟩ := hend
  unfold SerdeJson.fromSlice
  cases hs : seed (Cursor.fromSlice bytes) with
  | err e => rfl
  | panics m => rfl
  | hang => rfl
  | ok y =>
    obtain ⟨x, c'⟩ := y
    obtain rfl := hone x c' r hread hs
    have hend := Exec.returns_lift (J.endInput_reads ((Cursor.fromSlice bytes).moveTo r))
    rw [Cursor.moveTo_rest, if_pos hr] at hend
    simp [hend.some]

/-- **The bytes are valid exactly when they are a document.** -/
theorem validateJson_returns (J : SerdeJson) (bytes : Bytes) :
    (validateJson J bytes).Returns ((J.document bytes).map fun _ => ()) := by
  have h := fromSlice_returns (o := (readValue J.inRange recursionLimit bytes).map
    fun (_, r) => ((), r)) (by
      rw [Option.map_map]
      exact Validated.deserialize_returns (J := J) _ (Cursor.fromSlice bytes)
        (Nat.zero_lt_succ _) (Nat.le_refl _))
  have hdocument : (J.document bytes).map (fun _ => ()) =
      ((readValue J.inRange recursionLimit bytes).map fun (_, r) => ((), r)).bind
        fun (x, r) => if skipWs r = [] then some x else none := by
    unfold SerdeJson.document Json.document
    rcases readValue J.inRange recursionLimit bytes with _ | ⟨j, r⟩
    · rfl
    · by_cases hr : skipWs r = [] <;> simp [hr]
  rw [hdocument]
  exact h

theorem validateJson_of_document {J : SerdeJson} {bytes : Bytes} {j : Json}
    (h : J.document bytes = some j) : validateJson J bytes = .ok () := by
  have hreturns := validateJson_returns J bytes
  rw [h] at hreturns
  exact hreturns.some

theorem validateJson_settles (J : SerdeJson) (bytes : Bytes) : (validateJson J bytes).Settles := by
  have h := validateJson_returns J bytes
  cases hv : validateJson J bytes with
  | ok u => trivial
  | err e => trivial
  | panics m => rw [hv] at h; exact h
  | hang => rw [hv] at h; exact h

end VersionedEnvelope
