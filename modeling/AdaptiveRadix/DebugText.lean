import AdaptiveRadix.Violation

/-!
Values, cursors, nodes, entries and violations as records in braces, for debugging.
-/

namespace AdaptiveRadix.DebugText

def record (name : String) (fields : List (String × String)) : String :=
  name ++ " \x7b " ++ ", ".intercalate (fields.map fun (field, text) => field ++ ": " ++ text) ++
    " \x7d"

def list (items : List String) : String :=
  "[" ++ ", ".intercalate items ++ "]"

def escape : Char → List Char
  | '"' => ['\\', '"']
  | '\\' => ['\\', '\\']
  | '\n' => ['\\', 'n']
  | '\t' => ['\\', 't']
  | c => [c]

/-- A string of printable ASCII characters, line feeds and tabs in double quotes. -/
def quoted (s : String) : String :=
  "\"" ++ String.ofList (s.toList.flatMap escape) ++ "\""

def cursor (c : Cursor) : String :=
  record "ByteKeyStream"
    [("data", c.bytes.renderDecimal), ("pos", Nat.repr c.position.toNat)]

variable {V : Type}

def node (value : V → String) : Node V → String :=
  Node.fold
    (fun suffix v hits => record "Node" [("shape", Shape.leaf.debugName),
      ("prefix", suffix.renderStem), ("value", value v), ("hits", Nat.repr hits.toNat)])
    fun stem s below => record "Node" [("shape", (Shape.inner s.layout).debugName),
      ("prefix", stem.renderStem),
      ("children", list (below.map fun (b, text) => "(" ++ Bytes.decimal b ++ ", " ++ text ++ ")"))]

def entries (value : V → String) (items : List (Bytes × V)) : String :=
  "\x7b" ++ ", ".intercalate (items.map fun (key, v) => key.renderDecimal ++ ": " ++ value v) ++
    "\x7d"

def violation : Violation → String
  | .overCapacity path shape children => record "OverCapacity"
      [("path", path.renderDecimal), ("shape", shape.debugName), ("children", Nat.repr children)]
  | .countMismatch path shape reported actual => record "CountMismatch"
      [("path", path.renderDecimal), ("shape", shape.debugName),
        ("reported", Nat.repr reported), ("actual", Nat.repr actual)]
  | .unorderedKeys path keys => record "UnorderedKeys"
      [("path", path.renderDecimal), ("keys", keys.renderDecimal)]
  | .underfull path children => record "Underfull"
      [("path", path.renderDecimal), ("children", Nat.repr children)]
  | .belowMinimum path shape children => record "BelowMinimum"
      [("path", path.renderDecimal), ("shape", shape.debugName), ("children", Nat.repr children)]

end AdaptiveRadix.DebugText
