import Mathlib.Data.List.Basic
import Mathlib.Data.List.TakeWhile
import Mathlib.Tactic.Common

/-!
# JSON text: the lexical layer

Executable scanners for the tokens of RFC 8259 over byte lists: whitespace, the keywords,
numbers and strings.  Numbers and strings are read by automata that take one byte at a time.

* `Reads` — reading takes a text off the front of the input and depends on nothing after it,
  as long as what follows does not continue a number (`Follow`).
* `token_reads` — this holds of the tokens; `scanNumber_reads`, `parseStr_reads` and
  `keyword_reads` are its parts.
* `visit` — the method a self-describing deserializer calls on its visitor.
-/

set_option autoImplicit false

abbrev Bytes := List UInt8

namespace Json

/-- The bytes of an ASCII text. -/
def ascii (s : String) : Bytes := s.toList.map fun c => UInt8.ofNat c.toNat

namespace Byte

abbrev quote : UInt8 := 0x22
abbrev plus : UInt8 := 0x2B
abbrev comma : UInt8 := 0x2C
abbrev minus : UInt8 := 0x2D
abbrev dot : UInt8 := 0x2E
abbrev zero : UInt8 := 0x30
abbrev colon : UInt8 := 0x3A
abbrev upperE : UInt8 := 0x45
abbrev lbracket : UInt8 := 0x5B
abbrev backslash : UInt8 := 0x5C
abbrev rbracket : UInt8 := 0x5D
abbrev lowerE : UInt8 := 0x65
abbrev lowerF : UInt8 := 0x66
abbrev lowerN : UInt8 := 0x6E
abbrev lowerT : UInt8 := 0x74
abbrev lowerU : UInt8 := 0x75
abbrev lbrace : UInt8 := 0x7B
abbrev rbrace : UInt8 := 0x7D

end Byte

/-! ## Whitespace and keywords -/

/-- Space, tab, line feed and carriage return. -/
def isWhitespace (b : UInt8) : Bool := b == 0x20 || b == 0x09 || b == 0x0A || b == 0x0D

def isDigit (b : UInt8) : Bool := 0x30 ≤ b && b ≤ 0x39

def skipWs (w : Bytes) : Bytes := w.dropWhile isWhitespace

/-- The input after the keyword `k`. -/
def keyword (k w : Bytes) : Option Bytes := if k <+: w then some (w.drop k.length) else none

/-! ## Numbers -/

/-- Where the scan of a number stands. -/
inductive NumState where
  | start
  | minus
  | zero
  | int
  | dot
  | frac
  | exp
  | expSign
  | expDigit
  deriving DecidableEq, Repr

/-- The scan goes on, has passed the end of the number, or cannot be a number. -/
inductive NumStep where
  | go (s : NumState)
  | stop
  | bad
  deriving DecidableEq, Repr

/-- After the integer part. -/
def afterInt (b : UInt8) : NumStep :=
  if b = Byte.dot then .go .dot
  else if b = Byte.lowerE ∨ b = Byte.upperE then .go .exp
  else .stop

/-- `[-] (0 | [1-9][0-9]*) [. [0-9]+] [(e|E) [+|-] [0-9]+]`, one byte at a time.  A leading
    zero may not be followed by a digit. -/
def NumState.step (s : NumState) (b : UInt8) : NumStep :=
  match s with
  | .start =>
    if b = Byte.minus then .go .minus
    else if b = Byte.zero then .go .zero
    else if isDigit b then .go .int
    else .bad
  | .minus => if b = Byte.zero then .go .zero else if isDigit b then .go .int else .bad
  | .zero => if isDigit b then .bad else afterInt b
  | .int => if isDigit b then .go .int else afterInt b
  | .dot => if isDigit b then .go .frac else .bad
  | .frac =>
    if isDigit b then .go .frac
    else if b = Byte.lowerE ∨ b = Byte.upperE then .go .exp
    else .stop
  | .exp =>
    if b = Byte.plus ∨ b = Byte.minus then .go .expSign
    else if isDigit b then .go .expDigit
    else .bad
  | .expSign => if isDigit b then .go .expDigit else .bad
  | .expDigit => if isDigit b then .go .expDigit else .stop

/-- A number may end here. -/
def NumState.final : NumState → Bool
  | .zero | .int | .frac | .expDigit => true
  | _ => false

/-- The number literal at the front of the input, and what follows it. -/
def scanNumber : NumState → Bytes → Option (Bytes × Bytes)
  | s, [] => if s.final then some ([], []) else none
  | s, b :: r =>
    match s.step b with
    | .go s' => (scanNumber s' r).map fun (lit, r') => (b :: lit, r')
    | .stop => if s.final then some ([], b :: r) else none
    | .bad => none

/-- The value of a run of digits. -/
def digitsValue (ds : Bytes) : Nat := ds.foldl (fun n b => 10 * n + (b.toNat - 48)) 0

/-! ## Strings -/

/-- Where the scan of a string stands, after its opening quote. -/
inductive StrState where
  | plain
  | escape
  | hex (left acc : Nat) (hi : Option Nat)
  | lead (n : Nat)
  | leadEscape (n : Nat)
  deriving DecidableEq, Repr

/-- The scan goes on and emits bytes, has read the closing quote, or cannot be a string. -/
inductive StrStep where
  | go (s : StrState) (out : Bytes)
  | close
  | bad
  deriving DecidableEq, Repr

def hexVal (b : UInt8) : Option Nat :=
  if isDigit b then some (b.toNat - 0x30)
  else if 0x41 ≤ b ∧ b ≤ 0x46 then some (b.toNat - 0x37)
  else if 0x61 ≤ b ∧ b ≤ 0x66 then some (b.toNat - 0x57)
  else none

def encodeUtf8 (n : Nat) : Bytes := String.utf8EncodeChar (Char.ofNat n)

/-- The byte after a backslash. -/
def escapeStep (b : UInt8) : StrStep :=
  if b = Byte.quote ∨ b = Byte.backslash ∨ b = 0x2F then .go .plain [b]
  else if b = 0x62 then .go .plain [0x08]
  else if b = Byte.lowerF then .go .plain [0x0C]
  else if b = Byte.lowerN then .go .plain [0x0A]
  else if b = 0x72 then .go .plain [0x0D]
  else if b = Byte.lowerT then .go .plain [0x09]
  else if b = Byte.lowerU then .go (.hex 4 0 none) []
  else .bad

/-- A complete `\uXXXX`: surrogates come in pairs, leading one first. -/
def hexDone (n : Nat) : Option Nat → StrStep
  | none =>
    if 0xDC00 ≤ n ∧ n ≤ 0xDFFF then .bad
    else if 0xD800 ≤ n ∧ n ≤ 0xDBFF then .go (.lead n) []
    else .go .plain (encodeUtf8 n)
  | some hi =>
    if 0xDC00 ≤ n ∧ n ≤ 0xDFFF then
      .go .plain (encodeUtf8 (0x10000 + (hi - 0xD800) * 0x400 + (n - 0xDC00)))
    else .bad

def StrState.step (s : StrState) (b : UInt8) : StrStep :=
  match s with
  | .plain =>
    if b = Byte.quote then .close
    else if b = Byte.backslash then .go .escape []
    else if b < 0x20 then .bad
    else .go .plain [b]
  | .escape => escapeStep b
  | .hex left acc hi =>
    match hexVal b with
    | none => .bad
    | some d =>
      if left ≤ 1 then hexDone (16 * acc + d) hi
      else .go (.hex (left - 1) (16 * acc + d) hi) []
  | .lead n => if b = Byte.backslash then .go (.leadEscape n) [] else .bad
  | .leadEscape n => if b = Byte.lowerU then .go (.hex 4 0 (some n)) [] else .bad

/-- The unescaped bytes up to the closing quote, and what follows it. -/
def scanString : StrState → Bytes → Option (Bytes × Bytes)
  | _, [] => none
  | s, b :: r =>
    match s.step b with
    | .go s' out => (scanString s' r).map fun (bs, r') => (out ++ bs, r')
    | .close => some ([], r)
    | .bad => none

/-- The string after an opening quote; its bytes must be UTF-8. -/
def parseStr (w : Bytes) : Option (String × Bytes) := do
  let (bs, r) ← scanString .plain w
  let s ← String.fromUTF8? ⟨bs.toArray⟩
  some (s, r)

example : parseStr (ascii "\\u0076ersion\":4") = some ("version", ascii ":4") := by decide
example : parseStr (ascii "\\ud800\"") = none := by decide

/-! ## Tokens at the front of a value -/

/-- What stands at the front of a value: the method a self-describing deserializer calls on
    its visitor.  The value of a float is its literal. -/
inductive Visit where
  | unit
  | bool (b : Bool)
  | i64 (n : Int)
  | u64 (n : Nat)
  | f64 (literal : Bytes)
  | str (s : String)
  | seq
  | map
  deriving DecidableEq

/-- Integers that fit are integers (`-0` is not one); every other literal is a float, which
    must be in range. -/
def numberVisit (inRange : Bytes → Bool) (lit : Bytes) : Option Visit :=
  let float := if inRange lit then some (.f64 lit) else none
  match lit with
  | [] => float
  | b :: ds =>
    if (b :: ds).all isDigit then
      if digitsValue (b :: ds) < UInt64.size then some (.u64 (digitsValue (b :: ds))) else float
    else if b = Byte.minus ∧ ds.all isDigit then
      if digitsValue ds ≠ 0 ∧ Int64.minValue.toInt ≤ -(digitsValue ds : Int) then
        some (.i64 (-(digitsValue ds : Int)))
      else float
    else float

/-- The value of a literal that is a bare run of digits: no sign, fraction or exponent. -/
def bareInteger (lit : Bytes) : Option Nat :=
  if lit ≠ [] ∧ lit.all isDigit then some (digitsValue lit) else none

/-- A token at the front of a value. -/
inductive Token where
  | null
  | bool (b : Bool)
  | number (literal : Bytes)
  | string (s : String)
  | openArray
  | openObject
  deriving DecidableEq

/-- The token at the front of a value whose whitespace has been skipped. -/
def tokenAt : Bytes → Option (Token × Bytes)
  | [] => none
  | b :: r =>
    if b = Byte.lowerN then (keyword (ascii "null") (b :: r)).map (.null, ·)
    else if b = Byte.lowerT then (keyword (ascii "true") (b :: r)).map (.bool true, ·)
    else if b = Byte.lowerF then (keyword (ascii "false") (b :: r)).map (.bool false, ·)
    else if b = Byte.minus ∨ isDigit b then
      (scanNumber .start (b :: r)).map fun (lit, r') => (.number lit, r')
    else if b = Byte.quote then (parseStr r).map fun (s, r') => (.string s, r')
    else if b = Byte.lbracket then some (.openArray, r)
    else if b = Byte.lbrace then some (.openObject, r)
    else none

def token (w : Bytes) : Option (Token × Bytes) := tokenAt (skipWs w)

def Token.visit (inRange : Bytes → Bool) : Token → Option Visit
  | .null => some .unit
  | .bool b => some (.bool b)
  | .number lit => numberVisit inRange lit
  | .string s => some (.str s)
  | .openArray => some .seq
  | .openObject => some .map

/-- What stands at the front of a value, and what follows that token. -/
def visit (inRange : Bytes → Bool) (w : Bytes) : Option (Visit × Bytes) :=
  (token w).bind fun (t, r) => (t.visit inRange).map (·, r)

/-- The punctuation `b`, after whitespace. -/
def punct (b : UInt8) (w : Bytes) : Option Bytes :=
  match skipWs w with
  | [] => none
  | b' :: r => if b' = b then some r else none

/-! ## Reading depends on the text read only -/

/-- A number goes on with this byte. -/
def continuesNumber (b : UInt8) : Bool :=
  isDigit b || b == Byte.dot || b == Byte.lowerE || b == Byte.upperE

/-- The input does not continue a number that ends before it. -/
def Follow (r : Bytes) : Prop := ∀ b ∈ r.head?, continuesNumber b = false

theorem follow_nil : Follow [] := by intro b hb; cases hb

theorem follow_cons {b : UInt8} {r : Bytes} (h : continuesNumber b = false) : Follow (b :: r) := by
  intro b' hb; cases hb; exact h

theorem NumState.step_stop {s : NumState} (hs : s.final = true) {b : UInt8}
    (hb : continuesNumber b = false) : s.step b = .stop := by
  simp only [continuesNumber, Bool.or_eq_false_iff, beq_eq_false_iff_ne] at hb
  obtain ⟨⟨⟨h1, h2⟩, h3⟩, h4⟩ := hb
  cases s <;> simp_all [NumState.final, NumState.step, afterInt]

theorem scanNumber_stop {s : NumState} (hs : s.final = true) {r : Bytes} (hr : Follow r) :
    scanNumber s r = some ([], r) := by
  cases r with
  | nil => simp [scanNumber, hs]
  | cons b r => simp [scanNumber, NumState.step_stop hs (hr b rfl), hs]

theorem scanNumber_reads : ∀ {w : Bytes} {s : NumState} {lit r : Bytes},
    scanNumber s w = some (lit, r) →
      w = lit ++ r ∧ ∀ r', Follow r' → scanNumber s (lit ++ r') = some (lit, r') := by
  intro w
  induction w with
  | nil =>
    intro s lit r h
    simp only [scanNumber, Option.ite_none_right_eq_some, Option.some.injEq, Prod.mk.injEq] at h
    obtain ⟨hs, rfl, rfl⟩ := h
    exact ⟨rfl, fun r' hr' => scanNumber_stop hs hr'⟩
  | cons b w ih =>
    intro s lit r h
    unfold scanNumber at h
    split at h
    · rename_i s' hs'
      simp only [Option.map_eq_some_iff, Prod.exists, Prod.mk.injEq] at h
      obtain ⟨lit', r', hscan, rfl, rfl⟩ := h
      obtain ⟨hw, hext⟩ := ih hscan
      refine ⟨by rw [hw]; rfl, ?_⟩
      intro r'' hr''
      simp only [List.cons_append, scanNumber, hs', hext r'' hr'', Option.map_some]
    · simp only [Option.ite_none_right_eq_some, Option.some.injEq, Prod.mk.injEq] at h
      obtain ⟨hs, rfl, rfl⟩ := h
      exact ⟨rfl, fun r' hr' => scanNumber_stop hs hr'⟩
    · cases h

theorem scanString_reads : ∀ {w : Bytes} {s : StrState} {bs r : Bytes},
    scanString s w = some (bs, r) →
      ∃ t, w = t ++ r ∧ t ≠ [] ∧ ∀ r', scanString s (t ++ r') = some (bs, r') := by
  intro w
  induction w with
  | nil =>
    intro s bs r h
    simp [scanString] at h
  | cons b w ih =>
    intro s bs r h
    unfold scanString at h
    split at h
    · rename_i s' out hs'
      simp only [Option.map_eq_some_iff, Prod.exists, Prod.mk.injEq] at h
      obtain ⟨bs', r', hscan, rfl, rfl⟩ := h
      obtain ⟨t, rfl, -, hext⟩ := ih hscan
      refine ⟨b :: t, rfl, by simp, ?_⟩
      intro r''
      simp only [List.cons_append, scanString, hs', hext r'', Option.map_some]
    · rename_i hs'
      simp only [Option.some.injEq, Prod.mk.injEq] at h
      obtain ⟨rfl, rfl⟩ := h
      refine ⟨[b], rfl, by simp, ?_⟩
      intro r'
      simp only [List.cons_append, List.nil_append, scanString, hs']
    · cases h

theorem parseStr_reads {w : Bytes} {s : String} {r : Bytes} (h : parseStr w = some (s, r)) :
    ∃ t, w = t ++ r ∧ t ≠ [] ∧ ∀ r', parseStr (t ++ r') = some (s, r') := by
  simp only [parseStr, Option.bind_eq_bind, Option.bind_eq_some_iff, Prod.exists,
    Option.some.injEq, Prod.mk.injEq] at h
  obtain ⟨bs, r', hscan, s', hs', rfl, rfl⟩ := h
  obtain ⟨t, rfl, hne, hext⟩ := scanString_reads hscan
  exact ⟨t, rfl, hne, fun r'' => by simp [parseStr, hext r'', hs']⟩

theorem keyword_reads {k w r : Bytes} (h : keyword k w = some r) :
    w = k ++ r ∧ ∀ r', keyword k (k ++ r') = some r' := by
  simp only [keyword, Option.ite_none_right_eq_some, Option.some.injEq] at h
  obtain ⟨⟨t, rfl⟩, rfl⟩ := h
  exact ⟨by simp, fun r' => by simp [keyword]⟩

theorem skipWs_cons {b : UInt8} (h : isWhitespace b = false) (r : Bytes) :
    skipWs (b :: r) = b :: r := by
  simp [skipWs, h]

theorem skipWs_eq_cons {w : Bytes} {b : UInt8} {r : Bytes} (h : skipWs w = b :: r) :
    isWhitespace b = false := by
  have hne : w.dropWhile isWhitespace ≠ [] := by
    intro hnil; rw [skipWs, hnil] at h; cases h
  have hhead := List.head_dropWhile_not isWhitespace hne
  simp only [show w.dropWhile isWhitespace = b :: r from h, List.head_cons] at hhead
  exact hhead

/-- Whitespace is skipped once. -/
@[simp] theorem skipWs_skipWs (w : Bytes) : skipWs (skipWs w) = skipWs w := by
  cases h : skipWs w with
  | nil => rfl
  | cons b r => exact skipWs_cons (skipWs_eq_cons h) r

/-- The whitespace skipped. -/
theorem exists_skipWs (w : Bytes) : ∃ s, w = s ++ skipWs w ∧ ∀ b ∈ s, isWhitespace b = true :=
  ⟨w.takeWhile isWhitespace, (List.takeWhile_append_dropWhile ..).symm,
    fun _ hb => List.mem_takeWhile_imp hb⟩

theorem skipWs_length_le (w : Bytes) : (skipWs w).length ≤ w.length :=
  (List.dropWhile_sublist _).length_le

theorem skipWs_append {s : Bytes} (hs : ∀ b ∈ s, isWhitespace b = true) (w : Bytes) :
    skipWs (s ++ w) = skipWs w := by
  unfold skipWs
  rw [List.dropWhile_append_of_pos hs]

/-- What is appended to an input that is not all whitespace stays behind it. -/
theorem skipWs_append_right {w : Bytes} (h : skipWs w ≠ []) (w' : Bytes) :
    skipWs (w ++ w') = skipWs w ++ w' := by
  unfold skipWs at h ⊢
  rw [List.dropWhile_append, if_neg (by simpa using h)]

theorem continuesNumber_of_isWhitespace {b : UInt8} (h : isWhitespace b = true) :
    continuesNumber b = false := by
  simp only [isWhitespace, Bool.or_eq_true, beq_iff_eq] at h
  rcases h with ((rfl | rfl) | rfl) | rfl <;> decide

/-- Whitespace and then something that does not continue a number does not continue one. -/
theorem follow_of_skipWs {w : Bytes} (h : Follow (skipWs w)) : Follow w := by
  cases w with
  | nil => exact follow_nil
  | cons b r =>
    cases hb : isWhitespace b
    · rwa [skipWs_cons hb] at h
    · exact follow_cons (continuesNumber_of_isWhitespace hb)

/-- `p` skips whitespace and takes a nonempty text off the front of the input; on any input
    with that text at the front, and nothing that continues a number after it, it reads the
    same. -/
def Reads {α : Type} (p : Bytes → Option (α × Bytes)) : Prop :=
  ∀ w a r, p w = some (a, r) →
    ∃ t, t ≠ [] ∧ skipWs w = t ++ r ∧
      ∀ w' r', skipWs w' = t ++ r' → Follow r' → p w' = some (a, r')

/-- What is read is gone from the input. -/
theorem Reads.length_lt {α : Type} {p : Bytes → Option (α × Bytes)} (hp : Reads p) {w r : Bytes}
    {a : α} (h : p w = some (a, r)) : r.length < w.length := by
  obtain ⟨t, hne, ht, -⟩ := hp w a r h
  have hlen := congrArg List.length ht
  have hpos := List.length_pos_iff.2 hne
  have hskip := skipWs_length_le w
  rw [List.length_append] at hlen
  omega

/-- A keyword token depends on its text only. -/
theorem keyword_token {k w r : Bytes} {a tok : Token}
    (hk : ∀ r', tokenAt (k ++ r') = (keyword k (k ++ r')).map (tok, ·)) (hne : k ≠ [])
    (h : (keyword k w).map (tok, ·) = some (a, r)) :
    ∃ t, t ≠ [] ∧ w = t ++ r ∧ ∀ r', Follow r' → tokenAt (t ++ r') = some (a, r') := by
  simp only [Option.map_eq_some_iff, Prod.mk.injEq] at h
  obtain ⟨r', hkw, rfl, rfl⟩ := h
  obtain ⟨hw, hext⟩ := keyword_reads hkw
  exact ⟨k, hne, hw, fun r'' _ => by rw [hk, hext r'', Option.map_some]⟩

theorem tokenAt_reads {w : Bytes} {a : Token} {r : Bytes} (h : tokenAt w = some (a, r)) :
    ∃ t, t ≠ [] ∧ w = t ++ r ∧ ∀ r', Follow r' → tokenAt (t ++ r') = some (a, r') := by
  cases w with
  | nil => cases h
  | cons b w =>
    rw [tokenAt] at h
    split at h
    · exact keyword_token (fun _ => rfl) (by decide) h
    split at h
    · exact keyword_token (fun _ => rfl) (by decide) h
    split at h
    · exact keyword_token (fun _ => rfl) (by decide) h
    rename_i hn ht hf
    split at h
    · rename_i hnum
      simp only [Option.map_eq_some_iff, Prod.exists, Prod.mk.injEq] at h
      obtain ⟨lit, r', hscan, rfl, rfl⟩ := h
      obtain ⟨hw, hext⟩ := scanNumber_reads hscan
      cases lit with
      | nil => exact absurd (hext [] follow_nil) (by decide)
      | cons b' lit =>
        obtain ⟨rfl, rfl⟩ := List.cons.inj hw
        refine ⟨b :: lit, by simp, rfl, fun r'' hr'' => ?_⟩
        have := hext r'' hr''
        simp only [List.cons_append] at this ⊢
        rw [tokenAt, if_neg hn, if_neg ht, if_neg hf, if_pos hnum, this]
        rfl
    rename_i hnum
    split at h
    · rename_i hq
      simp only [Option.map_eq_some_iff, Prod.exists, Prod.mk.injEq] at h
      obtain ⟨s, r', hs, rfl, rfl⟩ := h
      obtain ⟨t, rfl, -, hext⟩ := parseStr_reads hs
      refine ⟨b :: t, by simp, rfl, fun r'' _ => ?_⟩
      rw [List.cons_append, tokenAt, if_neg hn, if_neg ht, if_neg hf, if_neg hnum, if_pos hq,
        hext r'']
      rfl
    rename_i hq
    split at h
    · rename_i hb
      cases h
      exact ⟨[b], by simp, rfl, fun r' _ => by
        rw [List.singleton_append, tokenAt, if_neg hn, if_neg ht, if_neg hf, if_neg hnum,
          if_neg hq, if_pos hb]⟩
    rename_i hb
    split at h
    · rename_i hc
      cases h
      exact ⟨[b], by simp, rfl, fun r' _ => by
        rw [List.singleton_append, tokenAt, if_neg hn, if_neg ht, if_neg hf, if_neg hnum,
          if_neg hq, if_neg hb, if_pos hc]⟩
    · cases h

/-- **A token depends on its own text only.** -/
theorem token_reads : Reads token := by
  intro w a r h
  obtain ⟨t, hne, hw, hext⟩ := tokenAt_reads h
  exact ⟨t, hne, hw, fun w' r' hw' hr' => by rw [token, hw', hext r' hr']⟩

theorem token_openArray_iff {w r : Bytes} :
    token w = some (.openArray, r) ↔ skipWs w = Byte.lbracket :: r := by
  unfold token
  cases skipWs w with
  | nil => simp [tokenAt]
  | cons b r' =>
    constructor
    · intro h
      rw [tokenAt] at h
      split_ifs at h <;> simp_all
    · intro h
      obtain ⟨rfl, rfl⟩ := List.cons.inj h
      rfl

theorem token_openObject_iff {w r : Bytes} :
    token w = some (.openObject, r) ↔ skipWs w = Byte.lbrace :: r := by
  unfold token
  cases skipWs w with
  | nil => simp [tokenAt]
  | cons b r' =>
    constructor
    · intro h
      rw [tokenAt] at h
      split_ifs at h <;> simp_all
    · intro h
      obtain ⟨rfl, rfl⟩ := List.cons.inj h
      rfl

theorem punct_reads {b : UInt8} {w r : Bytes} (h : punct b w = some r) :
    skipWs w = b :: r ∧ ∀ w' r', skipWs w' = b :: r' → punct b w' = some r' := by
  unfold punct at h
  split at h
  · cases h
  · rename_i b' r' hw
    split at h
    · rename_i hb
      cases h
      exact ⟨by rw [hw, hb], fun w' r'' hw' => by simp [punct, hw']⟩
    · cases h

end Json
