import DeskCalculator.Json
import DeskCalculator.Proofs.Decimal.General

/-!
# Reading JSON

What another program makes of a rendered value: a text between quotation marks is read back character by
character (`Json.unquote?_renderText`), and a numeral is read back as the number next to what it stands for
(`Json.number?_renderNumber`), with the sign of a zero. The fields of an object stand between braces, with commas
between them (`Json.render_object`).

The readings know nothing of how a value is written: each takes more texts than are written here, as a character
can be escaped or not, and a number has many numerals.
-/

namespace DeskCalculator

namespace Json

/-! ## Quoted texts -/

/-- The value of a hexadecimal digit, which is a digit or a small letter. -/
def hexDigit? (c : Char) : Option Nat :=
  if c.isDigit then some (c.toNat - '0'.toNat)
  else if 'a' ≤ c ∧ c ≤ 'f' then some (c.toNat - 'a'.toNat + 10)
  else none

/-- The character with a code of four hexadecimal digits. -/
def coded? (digits : Text) : Option Char :=
  (digits.mapM hexDigit?).map fun values => Char.ofNat (values.foldl (16 * · + ·) 0)

/-- The character that a letter or a mark behind a backslash stands for. -/
def unescape? : Char → Option Char
  | '"' => some '"'
  | '\\' => some '\\'
  | '/' => some '/'
  | 'b' => some '\x08'
  | 'f' => some '\x0c'
  | 'n' => some '\n'
  | 'r' => some '\r'
  | 't' => some '\t'
  | _ => none

/-- Reads a quoted text behind its first mark; behind the last one nothing may follow. A control character may
not stand for itself. -/
def quotedRest? : Text → Option Text
  | ['"'] => some []
  | '\\' :: 'u' :: a :: b :: c :: d :: t =>
    (coded? [a, b, c, d]).bind fun c => (quotedRest? t).map (c :: ·)
  | '\\' :: c :: t => (unescape? c).bind fun c => (quotedRest? t).map (c :: ·)
  | c :: t =>
    if c = '"' ∨ c = '\\' ∨ c.toNat < 0x20 then none else (quotedRest? t).map (c :: ·)
  | [] => none

/-- Reads a text between quotation marks. -/
def unquote? : Text → Option Text
  | '"' :: t => quotedRest? t
  | _ => none

theorem hexDigit?_digitChar {n : Nat} (h : n < 16) : hexDigit? (Nat.digitChar n) = some n := by
  have hall : ∀ n : Fin 16, hexDigit? (Nat.digitChar n) = some n.val := by decide
  exact hall ⟨n, h⟩

theorem coded?_of_lt {c : Char} (h : c.toNat < 0x20) :
    coded? ['0', '0', Nat.digitChar (c.toNat / 16), Nat.digitChar (c.toNat % 16)] = some c := by
  have hzero : hexDigit? '0' = some 0 := by decide
  have hvalues : ['0', '0', Nat.digitChar (c.toNat / 16), Nat.digitChar (c.toNat % 16)].mapM hexDigit? =
      some [0, 0, c.toNat / 16, c.toNat % 16] := by
    simp [hzero, hexDigit?_digitChar (n := c.toNat / 16) (by omega),
      hexDigit?_digitChar (n := c.toNat % 16) (by omega)]
  have hcode : [0, 0, c.toNat / 16, c.toNat % 16].foldl (16 * · + ·) 0 = c.toNat := by
    simp only [List.foldl_cons, List.foldl_nil]
    omega
  rw [coded?, hvalues, Option.map_some, hcode, Char.ofNat_toNat]

theorem quotedRest?_escapeChar (c : Char) (t : Text) :
    quotedRest? (escapeChar c ++ t) = (quotedRest? t).map (c :: ·) := by
  unfold escapeChar
  split
  next h => rcases h with rfl | rfl <;> simp [quotedRest?, unescape?]
  split
  next h => simp [h, quotedRest?, unescape?]
  split
  next h => simp [h, quotedRest?, unescape?]
  split
  next h => simp [h, quotedRest?, unescape?]
  split
  next h => simp [h, quotedRest?, unescape?]
  split
  next h => simp [h, quotedRest?, unescape?]
  split
  next h =>
    show quotedRest? ('\\' :: 'u' :: '0' :: '0' :: _ :: _ :: t) = _
    rw [quotedRest?, coded?_of_lt h]
    rfl
  next hmark _ _ _ _ _ hcontrol =>
    rw [not_or] at hmark
    have hplain : ¬ (c = '"' ∨ c = '\\' ∨ c.toNat < 0x20) := by simp [hmark, hcontrol]
    show quotedRest? (c :: t) = _
    rw [quotedRest?.eq_def]
    split
    next heq => exact absurd (List.cons.inj heq).1 hmark.1
    next heq => exact absurd (List.cons.inj heq).1 hmark.2
    next heq => exact absurd (List.cons.inj heq).1 hmark.2
    next heq =>
      obtain ⟨rfl, rfl⟩ := List.cons.inj heq
      rw [if_neg hplain]
    next heq => cases heq

theorem unquote?_renderText (t : Text) : unquote? (renderText t) = some t := by
  show quotedRest? (t.flatMap escapeChar ++ ['"']) = some t
  induction t with
  | nil => rfl
  | cons c t ih =>
    rw [List.flatMap_cons, List.append_assoc, quotedRest?_escapeChar, ih]
    rfl

/-! ## Numerals -/

/-- The number that digits stand for, if there is one digit or more and nothing else. -/
def digits? (t : Text) : Option Nat :=
  if t ≠ [] ∧ t.all Char.isDigit then some (Nat.ofDigitChars 10 t 0) else none

/-- Reads what stands in a numeral behind the digits: nothing, or an `e` and a power of ten with its sign. -/
def power? : Text → Option Int
  | [] => some 0
  | 'e' :: '+' :: t => (digits? t).map fun n => n
  | 'e' :: '-' :: t => (digits? t).map fun n => -n
  | _ => none

/-- Reads a numeral without a sign. -/
def decimal? (t : Text) : Option Decimal :=
  let mantissa := t.takeWhile (· != 'e')
  let value := Literal.unsignedValue mantissa
  if Literal.isUnsigned mantissa then
    (power? (t.dropWhile (· != 'e'))).map fun power => ⟨value.coefficient, value.exponent + power⟩
  else none

/-- Reads a numeral: the number next to what is written. -/
def number? : Text → Option Binary64
  | '-' :: t => (decimal? t).map (Decimal.toBinary64 true)
  | t => (decimal? t).map (Decimal.toBinary64 false)

theorem digits?_of_isDigits {t : Text} (h : Decimal.IsDigits t) :
    digits? t = some (Nat.ofDigitChars 10 t 0) :=
  if_pos ⟨h.1, List.all_eq_true.2 h.2⟩

theorem power?_eq (k : Int) :
    power? ('e' :: (if k < 0 then '-' else '+') :: Nat.toDigits 10 k.natAbs) = some k := by
  have hdigits : digits? (Nat.toDigits 10 k.natAbs) = some k.natAbs := by
    rw [digits?_of_isDigits
        ⟨Nat.toDigits_ne_nil, fun c hc => Nat.isDigit_of_mem_toDigits (by decide) (by decide) hc⟩,
      Nat.ofDigitChars_ten_toDigits]
  by_cases hk : k < 0
  · rw [if_pos hk, power?, hdigits]
    show some (-(k.natAbs : Int)) = some k
    rw [Int.ofNat_natAbs_of_nonpos (by omega), Int.neg_neg]
  · rw [if_neg hk, power?, hdigits]
    show some (k.natAbs : Int) = some k
    rw [Int.natAbs_of_nonneg (by omega)]

theorem decimal?_append {t rest : Text} {power : Int} (ht : 'e' ∉ t)
    (hliteral : Literal.isUnsigned t = true) (hrest : ∀ c ∈ rest.head?, c = 'e')
    (hpower : power? rest = some power) :
    decimal? (t ++ rest) =
      some ⟨(Literal.unsignedValue t).coefficient, (Literal.unsignedValue t).exponent + power⟩ := by
  obtain ⟨htake, hdrop⟩ := takeWhile_dropWhile_mark ht hrest
  rw [decimal?, htake, hdrop, if_pos hliteral, hpower]
  rfl

theorem decimal?_of_not_mem {t : Text} (ht : 'e' ∉ t) (hliteral : Literal.isUnsigned t = true) :
    decimal? t = some (Literal.unsignedValue t) := by
  have hread : decimal? (t ++ []) = _ := decimal?_append ht hliteral nofun rfl
  rwa [List.append_nil, Int.add_zero] at hread

theorem decimal?_scientific (d : Decimal) : decimal? (d.scientific 0) = some d := by
  have hwritten : d.scientific 0 = d.mantissa ++
      'e' :: (if d.leadingExponent < 0 then '-' else '+') :: Nat.toDigits 10 d.leadingExponent.natAbs := by
    rw [Decimal.scientific, Nat.zero_sub]
    rfl
  have hexponent : -(d.digits.length - 1 : Int) + d.leadingExponent = d.exponent := by
    rw [Decimal.leadingExponent]
    omega
  rw [hwritten, decimal?_append d.mark_not_mem_mantissa d.isUnsigned_mantissa (by simp) (power?_eq _),
    d.unsignedValue_mantissa, hexponent]

theorem exists_decimal?_whole {d : Decimal} (h : 0 ≤ d.exponent) :
    ∃ d', decimal? (d.plain ++ ['.', '0']) = some d' ∧ d'.code = d.code := by
  obtain ⟨⟨hne, hdigits⟩, -⟩ := Decimal.plain_of_nonneg h
  have hplaces : ∀ c ∈ ['0'], c.isDigit = true := by
    intro c hc
    rw [List.mem_singleton.1 hc]
    rfl
  have hmark : 'e' ∉ d.plain ++ ['.', '0'] := by simp [d.mark_not_mem_plain]
  refine ⟨_, decimal?_of_not_mem hmark (Literal.isUnsigned_of_pointed hne hdigits hplaces), ?_⟩
  have hcode := d.plain_reads.2
  rw [Literal.unsignedValue_of_digits hdigits] at hcode
  have hten : Nat.ofDigitChars 10 (d.plain ++ ['0']) 0 = Nat.ofDigitChars 10 d.plain 0 * 10 := by
    rw [Nat.ofDigitChars_append]
    exact Nat.mul_comm 10 _
  have hplace : -(['0'].length : Int) = -1 := rfl
  rw [Literal.unsignedValue_of_pointed hdigits hplaces, hten, ← hcode, hplace, ← Decimal.code_mul_ten,
    Int.add_left_neg]

theorem exists_decimal?_write (m : Magnitude) :
    ∃ d, decimal? (NumberStyle.json.write m) = some d ∧ d.code = m.code := by
  rw [NumberStyle.write]
  split
  next =>
    obtain ⟨hliteral, hcode⟩ := (m.shortest .toEven).plain_reads
    split
    next hwhole =>
      obtain ⟨d, hread, hd⟩ := exists_decimal?_whole hwhole
      exact ⟨d, hread, hd.trans (m.code_shortest .toEven)⟩
    next =>
      rw [List.append_nil]
      exact ⟨_, decimal?_of_not_mem (m.shortest .toEven).mark_not_mem_plain hliteral,
        hcode.trans (m.code_shortest .toEven)⟩
  next => exact ⟨_, decimal?_scientific _, m.code_shortest .toEven⟩

theorem number?_renderNumber {x : Binary64} (h : x.isFinite = true) :
    number? (renderNumber x) = some x := by
  cases x with
  | nan => cases h
  | infinite => cases h
  | finite negative m =>
    obtain ⟨d, hread, hcode⟩ := exists_decimal?_write m
    cases negative with
    | true =>
      show (decimal? (NumberStyle.json.write m)).map (Decimal.toBinary64 true) = _
      rw [hread, Option.map_some, toBinary64_of_code_eq true hcode]
    | false =>
      show number? (NumberStyle.json.write m) = _
      rw [number?.eq_def]
      split
      next t heq =>
        rw [heq] at hread
        simp [decimal?, Literal.isUnsigned, Literal.isNumeral] at hread
      next => rw [hread, Option.map_some, toBinary64_of_code_eq false hcode]

/-! ## Objects -/

/-- An object whose fields are there with the texts of their values. -/
def objectText (fields : List (Text × Text)) : Text :=
  '\x7b' :: ([','].intercalate (fields.map fun field => '"' :: (field.1 ++ '"' :: ':' :: field.2)) ++
    ['\x7d'])

theorem renderFields_eq (fields : List (Text × Json)) :
    renderFields fields =
      [','].intercalate (fields.map fun field => renderText field.1 ++ ':' :: field.2.render) := by
  induction fields with
  | nil => rfl
  | cons field fields ih =>
    cases fields with
    | nil => simp [renderFields]
    | cons next fields => simp [renderFields, ih, List.intercalate]

/-- Names without a mark or a control character are not escaped. -/
theorem render_object {fields : List (Text × Json)}
    (hnames : ∀ field ∈ fields, renderText field.1 = '"' :: (field.1 ++ ['"'])) :
    (object fields).render = objectText (fields.map fun field => (field.1, field.2.render)) := by
  have hfields : (fields.map fun field => renderText field.1 ++ ':' :: field.2.render) =
      fields.map fun field => '"' :: (field.1 ++ '"' :: ':' :: field.2.render) := by
    refine List.map_congr_left fun field hfield => ?_
    rw [hnames field hfield]
    simp
  rw [render, renderFields_eq, hfields, objectText, List.map_map]
  rfl

end Json

end DeskCalculator
