import AdaptiveRadix.Map.Step

/-!
What a map is, apart from its tree: a list of entries in the order of their keys, of which none is
a proper beginning of another. Each step searches the whole list.
-/

namespace AdaptiveRadix

abbrev Dictionary (V : Type) := List (Entry V)

namespace Dictionary

variable {V : Type}

/-- One of two different keys is a beginning of the other. -/
def Nested (a b : Bytes) : Prop :=
  a ≠ b ∧ (a <+: b ∨ b <+: a)

instance (a b : Bytes) : Decidable (Nested a b) :=
  inferInstanceAs (Decidable (_ ∧ _))

def entry? (d : Dictionary V) (key : Bytes) : Option (Entry V) :=
  d.find? (·.key = key)

/-- Puts a new entry behind those with a smaller key. -/
def add (d : Dictionary V) (e : Entry V) : Dictionary V :=
  d.takeWhile (·.key < e.key) ++ e :: d.dropWhile (·.key < e.key)

def update (d : Dictionary V) (key : Bytes) (change : Entry V → Entry V) : Dictionary V :=
  d.map fun e => if e.key = key then change e else e

def upsert (repetition : Repetition) (d : Dictionary V) (key : Bytes) (value : V) :
    Except KeyError UInt64 × Dictionary V :=
  match d.entry? key with
  | some e =>
    match repetition with
    | .refused => (.error .duplicateKey, d)
    | .counted => (.ok (e.hits + 1), d.update key fun e => { e with hits := e.hits + 1 })
  | none =>
    if ∃ e ∈ d, Nested key e.key then (.error .prefixConflict, d)
    else (.ok 1, d.add ⟨key, value, 1⟩)

def step (d : Dictionary V) : Map.Step V → Reply V × Dictionary V
  | .insert key value => (d.upsert .refused key value).map (.ofExcept fun _ => .done) id
  | .record key value => (d.upsert .counted key value).map (.ofExcept (.hits <| some ·)) id
  | .get key => (.value ((d.entry? key).map (·.value)), d)
  | .set key value =>
    (.value ((d.entry? key).map (·.value)), d.update key fun e => { e with value })
  | .contains key => (.flag (d.entry? key).isSome, d)
  | .hits key => (.hits ((d.entry? key).map (·.hits)), d)
  | .remove key =>
    (.value ((d.entry? key).map (·.value)), d.filter fun e => e.key ≠ key)
  | .len => (.number d.length, d)
  | .isEmpty => (.flag d.isEmpty, d)
  | .clear => (.done, [])

def run : Dictionary V → List (Map.Step V) → List (Reply V) × Dictionary V
  | d, [] => ([], d)
  | d, s :: rest =>
    let later := run (d.step s).2 rest
    ((d.step s).1 :: later.1, later.2)

end Dictionary

end AdaptiveRadix
