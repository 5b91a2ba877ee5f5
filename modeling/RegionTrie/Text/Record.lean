/-!
# The text of a record

Values are shown to people as a constructor's name followed by its fields, in braces when the
fields are named and in parentheses when there is a single bare one.

## Main definitions

* `Text.record`: `Name`, or `Name { a: 1, b: 2 }` with one entry per field
* `Text.wrap`: `Name(1)`
-/

namespace RegionTrie.Text

/-- The text of a record: its name, then every field as `label: value`. A record without fields
is its name alone. -/
def record (name : String) (fields : List (String × String)) : String :=
  match fields with
  | [] => name
  | _ :: _ =>
    name ++ " \x7b " ++ String.intercalate ", " (fields.map fun f => f.1 ++ ": " ++ f.2) ++ " \x7d"

/-- The text of a constructor around one bare value. -/
def wrap (name value : String) : String :=
  name ++ "(" ++ value ++ ")"

end RegionTrie.Text
