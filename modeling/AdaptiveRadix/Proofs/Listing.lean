import AdaptiveRadix.Listing

/-!
Reading a listing back line by line. Names and bytes are found by what they are written as, the
parts of a line by the marks between them, and the level by the blanks in front; the `[]` of an
empty tree is no line.
-/

namespace AdaptiveRadix

section Text

variable {α : Type}

/-- The first of some values that is written as the text. -/
def readAs (values : List α) (write : α → String) (text : List Char) : Option α :=
  values.find? fun a => (write a).toList = text

theorem readAs_write {values : List α} {write : α → String} {a : α} (h : a ∈ values)
    (injective : ∀ b, write b = write a → b = a) :
    readAs values write (write a).toList = some a := by
  have found : (readAs values write (write a).toList).isSome := by
    rw [readAs, List.find?_isSome]
    exact ⟨a, h, decide_eq_true rfl⟩
  obtain ⟨b, hb⟩ := Option.isSome_iff_exists.1 found
  have same : write b = write a := by
    simpa [String.toList_inj] using List.find?_some hb
  rw [hb, injective b same]

theorem takeWhile_dropWhile_append {p : α → Bool} {front back : List α}
    (inside : ∀ a ∈ front, p a = true) (outside : ∀ a ∈ back.head?, p a = false) :
    (front ++ back).takeWhile p = front ∧ (front ++ back).dropWhile p = back := by
  rw [List.takeWhile_append_of_pos inside, List.dropWhile_append_of_pos inside]
  cases back with
  | nil => simp
  | cons a back => simp [outside a rfl]

def cut (mark : Char) (text : List Char) : List Char × List Char :=
  (text.takeWhile (· ≠ mark), (text.dropWhile (· ≠ mark)).tail)

theorem cut_append {mark : Char} {front : List Char} (h : ∀ c ∈ front, c ≠ mark)
    (back : List Char) : cut mark (front ++ mark :: back) = (front, back) := by
  have inside : ∀ c ∈ front, decide (c ≠ mark) = true := fun c hc => decide_eq_true (h c hc)
  have outside : ∀ c ∈ (mark :: back).head?, decide (c ≠ mark) = false := by simp
  obtain ⟨before, behind⟩ := takeWhile_dropWhile_append inside outside
  rw [cut, before, behind, List.tail_cons]

end Text

namespace Bytes

theorem digitChar_inj : ∀ m < 16, ∀ n < 16, Nat.digitChar m = Nat.digitChar n → m = n := by
  decide

theorem hexPair_inj {a b : UInt8} (h : hexPair a = hexPair b) : a = b := by
  have digits := String.ofList_injective h
  simp only [hexDigit, List.cons.injEq, and_true] at digits
  have high := digitChar_inj _ (Nat.mod_lt _ (by decide)) _ (Nat.mod_lt _ (by decide)) digits.1
  have low := digitChar_inj _ (Nat.mod_lt _ (by decide)) _ (Nat.mod_lt _ (by decide)) digits.2
  have := a.toNat_lt
  have := b.toNat_lt
  exact UInt8.toNat_inj.1 (by omega)

theorem digitChar_ne : ∀ n < 16, Nat.digitChar n ≠ ' ' ∧ Nat.digitChar n ≠ ')' ∧
    Nat.digitChar n ≠ ']' ∧ Nat.digitChar n ≠ '\n' := by
  decide

theorem ne_of_mem_hexPair {b : UInt8} {c : Char} (h : c ∈ (hexPair b).toList) :
    c ≠ ' ' ∧ c ≠ ')' ∧ c ≠ ']' ∧ c ≠ '\n' := by
  simp only [hexPair, String.toList_ofList, List.mem_cons, List.not_mem_nil, or_false] at h
  obtain rfl | rfl := h <;> exact digitChar_ne _ (Nat.mod_lt _ (by decide))

def readHexPair : List Char → Option UInt8 :=
  readAs all hexPair

theorem readHexPair_hexPair (b : UInt8) : readHexPair (hexPair b).toList = some b :=
  readAs_write (mem_all b) fun _ => hexPair_inj

def hex (bytes : Bytes) : List Char :=
  [' '].intercalate (bytes.map fun b => (hexPair b).toList)

theorem toList_renderStem (bytes : Bytes) :
    bytes.renderStem.toList = '[' :: (bytes.hex ++ [']']) := by
  simp [renderStem, bracketed, hex, String.toList_intercalate, Function.comp_def]

theorem ne_of_mem_hex {bytes : Bytes} {c : Char} (h : c ∈ bytes.hex) : c ≠ ']' ∧ c ≠ '\n' := by
  induction bytes with
  | nil => cases h
  | cons b bytes ih =>
    cases bytes with
    | nil =>
      rw [hex, List.map_singleton, List.intercalate_singleton] at h
      exact (ne_of_mem_hexPair h).2.2
    | cons d bytes =>
      simp only [hex, List.map_cons, List.intercalate_cons_cons, List.mem_append,
        List.mem_singleton] at h
      obtain (h | rfl) | h := h
      · exact (ne_of_mem_hexPair h).2.2
      · decide
      · exact ih h

def readHex (text : List Char) : Bytes :=
  (text.splitOn ' ').filterMap readHexPair

theorem readHex_hex (bytes : Bytes) : readHex bytes.hex = bytes := by
  cases bytes with
  | nil =>
    -- no blank in an empty text: one piece, and no pair
    rfl
  | cons b bytes =>
    have blankless : ∀ pair ∈ (b :: bytes).map (fun b => (hexPair b).toList), ' ' ∉ pair := by
      simp only [List.mem_map]
      rintro _ ⟨d, -, rfl⟩ blank
      exact (ne_of_mem_hexPair blank).1 rfl
    have pairs : readHexPair ∘ (fun b => (hexPair b).toList) = some := funext readHexPair_hexPair
    rw [readHex, hex, List.splitOn_intercalate _ blankless (by simp), List.filterMap_map, pairs,
      List.filterMap_some]

end Bytes

def readDecimal (text : List Char) : Nat :=
  Nat.ofDigitChars 10 (text.filter Char.isDigit) 0

theorem readDecimal_repr (n : Nat) {before behind : List Char}
    (h : ∀ c ∈ before, c.isDigit = false) (h' : ∀ c ∈ behind, c.isDigit = false) :
    readDecimal (before ++ (Nat.repr n).toList ++ behind) = n := by
  have digits : (Nat.toDigits 10 n).filter Char.isDigit = Nat.toDigits 10 n :=
    List.filter_eq_self.2 fun c hc => Nat.isDigit_of_mem_toDigits (by decide) (by decide) hc
  rw [readDecimal, List.filter_append, List.filter_append, Nat.toList_repr, digits,
    List.filter_eq_nil_iff.2 (by simpa using h), List.filter_eq_nil_iff.2 (by simpa using h'),
    List.nil_append, List.append_nil, Nat.ofDigitChars_ten_toDigits]

namespace Shape

def all : List Shape :=
  leaf :: Layout.all.map inner

theorem mem_all (shape : Shape) : shape ∈ all := by
  rcases shape with _ | _ | _ <;> decide

def opening : Shape → String
  | leaf => leaf.name ++ " suffix "
  | inner layout => layout.name ++ " prefix "

theorem opening_inj : ∀ a ∈ all, ∀ b ∈ all, a.opening = b.opening → a = b := by
  decide

theorem readAs_opening (shape : Shape) :
    readAs all opening shape.opening.toList = some shape :=
  readAs_write (mem_all shape) fun b => opening_inj b (mem_all b) shape (mem_all shape)

theorem ne_of_mem_opening (shape : Shape) :
    ∀ c ∈ shape.opening.toList, c ≠ '[' ∧ c ≠ '\n' := by
  rcases shape with _ | _ | _ <;> simp [opening, name, Layout.name]

theorem head_opening (shape : Shape) (behind : List Char) :
    ∀ c ∈ (shape.opening.toList ++ behind).head?, c ≠ ' ' ∧ c ≠ '(' := by
  rcases shape with _ | _ | _ <;> rintro c ⟨⟩ <;> decide

end Shape

namespace Line

def node (level : Nat) (bytes : Bytes) (number : Nat) : Shape → Line
  | .leaf => .leaf level bytes (UInt64.ofNat number)
  | .inner layout => .inner level layout bytes number

def nodeText (shape : Shape) (bytes : Bytes) (number : Nat) (what : String) : List Char :=
  shape.opening.toList ++ '[' :: (bytes.hex ++ ']' ::
    (", ".toList ++ (Nat.repr number).toList ++ what.toList))

def edgeText (byte : UInt8) : List Char :=
  '(' :: ((Bytes.hexPair byte).toList ++ ')' :: " =>".toList)

theorem toList_indent (level : Nat) : (indent level).toList = List.replicate (2 * level) ' ' :=
  String.toList_ofList

theorem toList_render_leaf (level : Nat) (suffix : Bytes) (hits : UInt64) :
    (leaf level suffix hits).render.toList =
      List.replicate (2 * level) ' ' ++ nodeText .leaf suffix hits.toNat " hits" := by
  simp [render, nodeText, toList_indent, Bytes.toList_renderStem, Shape.opening]

theorem toList_render_inner (level : Nat) (layout : Layout) (stem : Bytes) (children : Nat) :
    (inner level layout stem children).render.toList =
      List.replicate (2 * level) ' ' ++ nodeText (.inner layout) stem children " #children" := by
  simp [render, nodeText, toList_indent, Bytes.toList_renderStem, Shape.opening]

theorem toList_render_edge (level : Nat) (byte : UInt8) :
    (edge level byte).render.toList =
      List.replicate (2 * (level + 1)) ' ' ++ edgeText byte := by
  have blanks : List.replicate (2 * level) ' ' ++ List.replicate 2 ' ' =
      List.replicate (2 * (level + 1)) ' ' := List.replicate_append_replicate
  simp [render, edgeText, toList_indent, ← blanks]

/-- Reads what follows the blanks of a line; an edge has two more of them than its level asks
for. -/
def readBody (level : Nat) (body : List Char) : Option Line :=
  if body.head? = some '(' then
    (Bytes.readHexPair (cut ')' body.tail).1).map (edge (level - 1))
  else
    let (opening, rest) := cut '[' body
    let (bytes, number) := cut ']' rest
    (readAs Shape.all Shape.opening opening).map
      (node level (Bytes.readHex bytes) (readDecimal number))

def read? (text : List Char) : Option Line :=
  readBody ((text.takeWhile (· = ' ')).length / 2) (text.dropWhile (· = ' '))

theorem read?_indented (level : Nat) {body : List Char} (h : ∀ c ∈ body.head?, c ≠ ' ') :
    read? (List.replicate (2 * level) ' ' ++ body) = readBody level body := by
  have inside : ∀ c ∈ List.replicate (2 * level) ' ', decide (c = ' ') = true := by simp
  have outside : ∀ c ∈ body.head?, decide (c = ' ') = false := by simpa using h
  obtain ⟨blanks, behind⟩ := takeWhile_dropWhile_append inside outside
  rw [read?, blanks, behind, List.length_replicate, Nat.mul_div_cancel_left level (by decide)]

theorem read?_node (level : Nat) (shape : Shape) (bytes : Bytes) (number : Nat) {what : String}
    (h : ∀ c ∈ what.toList, c.isDigit = false) :
    read? (List.replicate (2 * level) ' ' ++ nodeText shape bytes number what) =
      some (node level bytes number shape) := by
  have head : ∀ c ∈ (nodeText shape bytes number what).head?, c ≠ ' ' ∧ c ≠ '(' :=
    shape.head_opening _
  have notEdge : (nodeText shape bytes number what).head? ≠ some '(' := fun round =>
    (head _ round).2 rfl
  rw [read?_indented level fun c hc => (head c hc).1, readBody, if_neg notEdge, nodeText]
  simp only [cut_append fun c hc => (shape.ne_of_mem_opening c hc).1,
    cut_append fun c hc => (Bytes.ne_of_mem_hex hc).1, Shape.readAs_opening, Option.map_some,
    Bytes.readHex_hex]
  rw [readDecimal_repr number (by simp) h]

theorem read?_edge (level : Nat) (byte : UInt8) :
    read? (List.replicate (2 * (level + 1)) ' ' ++ edgeText byte) = some (edge level byte) := by
  rw [edgeText, read?_indented _ (by simp), readBody, if_pos List.head?_cons, List.tail_cons,
    cut_append fun c hc => (Bytes.ne_of_mem_hexPair hc).2.1, Bytes.readHexPair_hexPair]
  rfl

theorem read?_render (l : Line) : read? l.render.toList = some l := by
  cases l with
  | leaf level suffix hits =>
    rw [toList_render_leaf, read?_node level _ _ _ (by simp), node, UInt64.ofNat_toNat]
  | inner level layout stem children =>
    rw [toList_render_inner, read?_node level _ _ _ (by simp), node]
  | edge level byte => rw [toList_render_edge, read?_edge]

theorem newline_notMem_nodeText (shape : Shape) (bytes : Bytes) (number : Nat) {what : String}
    (h : '\n' ∉ what.toList) : '\n' ∉ nodeText shape bytes number what := by
  have opening : '\n' ∉ shape.opening.toList := fun hc => (shape.ne_of_mem_opening _ hc).2 rfl
  have hex : '\n' ∉ bytes.hex := fun hc => (Bytes.ne_of_mem_hex hc).2 rfl
  have digits : '\n' ∉ Nat.toDigits 10 number := fun hc =>
    absurd (Nat.isDigit_of_mem_toDigits (by decide) (by decide) hc) (by decide)
  simp [nodeText, opening, hex, digits, h]

theorem newline_notMem_edgeText (byte : UInt8) : '\n' ∉ edgeText byte := by
  have hex : '\n' ∉ (Bytes.hexPair byte).toList := fun hc =>
    (Bytes.ne_of_mem_hexPair hc).2.2.2 rfl
  simp [edgeText, hex]

theorem newline_notMem_render (l : Line) : '\n' ∉ l.render.toList := by
  cases l with
  | leaf level suffix hits =>
    simp [toList_render_leaf, newline_notMem_nodeText]
  | inner level layout stem children =>
    simp [toList_render_inner, newline_notMem_nodeText]
  | edge level byte => simp [toList_render_edge, newline_notMem_edgeText]

def readAll (text : String) : List Line :=
  (text.toList.splitOn '\n').filterMap read?

theorem readAll_rendered (ls : List Line) :
    readAll (String.join (ls.map fun l => l.render ++ "\n")) = ls := by
  rw [readAll, String.toList_join, List.flatMap_map]
  induction ls with
  | nil => rfl
  | cons l ls ih =>
    have first : (l :: ls).flatMap (fun l => (l.render ++ "\n").toList) =
        l.render.toList ++ '\n' :: ls.flatMap fun l => (l.render ++ "\n").toList := by
      simp
    rw [first, List.splitOn_append_cons_self_of_not_mem (newline_notMem_render l),
      List.filterMap_cons_some (read?_render l), ih]

end Line

end AdaptiveRadix
