import DeskCalculator.Binary64.Written

/-!
# JSON

Results are handed to other programs as JSON on one line: `render` writes no blank between the
parts, and escapes the control characters of a text, so that no line break is written.
-/

namespace DeskCalculator

/-- A JSON value; an object has its fields in order. -/
inductive Json where
  | null
  | natural (n : Nat)
  | number (x : Binary64)
  | text (t : Text)
  | array (items : List Json)
  | object (fields : List (Text × Json))

namespace Json

/-- The escape for a character of a text. -/
def escapeChar (c : Char) : Text :=
  if c = '"' ∨ c = '\\' then ['\\', c]
  else if c = '\x08' then ['\\', 'b']
  else if c = '\x0c' then ['\\', 'f']
  else if c = '\n' then ['\\', 'n']
  else if c = '\r' then ['\\', 'r']
  else if c = '\t' then ['\\', 't']
  else if c.toNat < 0x20 then
    ['\\', 'u', '0', '0', Nat.digitChar (c.toNat / 16), Nat.digitChar (c.toNat % 16)]
  else [c]

/-- A text between quotation marks. -/
def renderText (t : Text) : Text := '"' :: (t.flatMap escapeChar ++ ['"'])

/-- A finite number; the others have no form of their own. -/
def renderNumber : Binary64 → Text
  | .finite negative m => Binary64.signed negative (NumberStyle.json.write m)
  | _ => "null".toList

example : renderNumber (Decimal.toBinary64 false ⟨1, 16⟩) = "1e+16".toList := by decide +kernel
example : renderNumber (Decimal.toBinary64 false ⟨1, 3⟩) = "1000.0".toList := by decide +kernel
example : renderNumber (Decimal.toBinary64 true ⟨15, -8⟩) = "-1.5e-7".toList := by decide +kernel

mutual

/-- The text of a value. -/
def render : Json → Text
  | null => "null".toList
  | natural n => Text.ofNat n
  | number x => renderNumber x
  | text t => renderText t
  | array items => '[' :: (renderItems items ++ [']'])
  | object fields => '\x7b' :: (renderFields fields ++ ['\x7d'])

/-- The items of an array, with commas between them. -/
def renderItems : List Json → Text
  | [] => []
  | [item] => item.render
  | item :: items => item.render ++ ',' :: renderItems items

/-- The fields of an object, with commas between them. -/
def renderFields : List (Text × Json) → Text
  | [] => []
  | [(name, value)] => renderText name ++ ':' :: value.render
  | (name, value) :: fields =>
    renderText name ++ ':' :: (value.render ++ ',' :: renderFields fields)

end

/-! ## Rendered texts stay on one line -/

theorem newline_not_mem_escapeChar (c : Char) : '\n' ∉ escapeChar c := by
  have hdigit (n : Nat) (h : n < 16) : '\n' ≠ Nat.digitChar n := by
    have hall : ∀ n : Fin 16, '\n' ≠ Nat.digitChar n := by decide
    exact hall ⟨n, h⟩
  unfold escapeChar
  split
  next h => rcases h with rfl | rfl <;> decide
  split
  · decide
  split
  · decide
  split
  · decide
  split
  · decide
  split
  · decide
  split
  next h =>
    have hhigh := hdigit (c.toNat / 16) (by omega)
    have hlow := hdigit (c.toNat % 16) (by omega)
    simp [hhigh, hlow]
  next hn _ _ _ => simpa using fun h : '\n' = c => hn h.symm

theorem newline_not_mem_renderText (t : Text) : '\n' ∉ renderText t := by
  have hescaped : '\n' ∉ t.flatMap escapeChar := by
    simp only [List.mem_flatMap, not_exists, not_and]
    exact fun c _ => newline_not_mem_escapeChar c
  simp [renderText, hescaped]

end Json

end DeskCalculator
