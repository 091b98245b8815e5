import Disasm86.Text.Hex

/-!
# JSON text

JSON values, and how they are written: over several lines, and two blanks deeper for each
value they are inside of. Writing is the last step before output. Listings are made and
compared as values.

## Main definitions

* `JsonValue`: A value.
* `JsonValue.textAt`: The text of a value at a depth.
* `JsonValue.render`: The text of a value on its own.
-/

namespace Disasm86

/-- A value. The members of an object have an order. -/
inductive JsonValue where
  /-- The value that stands for nothing. -/
  | null
  | number (n : Nat)
  | string (s : String)
  | array (items : List JsonValue)
  | object (members : List (String × JsonValue))
deriving Inhabited

namespace JsonValue

/-- A string, or nothing. -/
def optional : Option String → JsonValue
  | none => null
  | some s => string s

/-- A character inside a string. Quotes, backslashes and control characters are
    escaped, and nothing else is. -/
def escape (c : Char) : String :=
  if c = '"' then "\\\""
  else if c = '\\' then "\\\\"
  else if c = '\n' then "\\n"
  else if c = '\r' then "\\r"
  else if c = '\t' then "\\t"
  else if c.toNat = 0x08 then "\\b"
  else if c.toNat = 0x0C then "\\f"
  else if c.toNat < 0x20 then "\\u" ++ String.ofList (Hex.digits 4 c.toNat)
  else String.singleton c

/-- A string between quotes. -/
def quoted (s : String) : String :=
  "\"" ++ String.join (s.toList.map escape) ++ "\""

/-- A line end, and the blanks of a depth. -/
def newline (depth : Nat) : String :=
  "\n" ++ String.ofList (List.replicate (2 * depth) ' ')

/-- Parts between brackets, each on lines of its own. -/
def bracketed (opening closing : String) (depth : Nat) (parts : List String) : String :=
  if parts.isEmpty then opening ++ closing
  else
    opening ++ newline (depth + 1) ++ ("," ++ newline (depth + 1)).intercalate parts
      ++ newline depth ++ closing

/-- The text of a value at a depth. -/
def textAt (depth : Nat) : JsonValue → String
  | null => "null"
  | number n => toString n
  | string s => quoted s
  | array items => bracketed "[" "]" depth (items.map fun item => item.textAt (depth + 1))
  | object members =>
    bracketed "\x7b" "\x7d" depth (members.map fun m =>
      quoted m.1 ++ ": " ++ m.2.textAt (depth + 1))
termination_by value => value
decreasing_by
  · decreasing_tactic
  · rename_i hmem
    have hlt := List.sizeOf_lt_of_mem hmem
    rw [object.sizeOf_spec]
    rcases m with ⟨name, value⟩
    rw [Prod.mk.sizeOf_spec] at hlt
    simp only []
    omega

/-- The text of a value that is not inside another. -/
def render (value : JsonValue) : String := value.textAt 0

end JsonValue

end Disasm86
