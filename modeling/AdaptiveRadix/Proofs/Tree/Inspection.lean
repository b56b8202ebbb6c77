import AdaptiveRadix.Proofs.Storage.Added
import AdaptiveRadix.Proofs.Violation
import AdaptiveRadix.Tree.Inspection

/-!
Which violation a check reports. It visits the inner nodes from the root down, each before those
below it and the children in the order in which they are listed, and stops at the first node that
breaks a rule; the rules are tried in a fixed order.
-/

namespace AdaptiveRadix

variable {V α : Type}

def First {β : Type} (P : β → Prop) (l : List β) (x : β) : Prop :=
  ∃ front back, l = front ++ x :: back ∧ P x ∧ ∀ y ∈ front, ¬ P y

theorem First.holds {β : Type} {P : β → Prop} {l : List β} {x : β} (h : First P l x) : P x := by
  obtain ⟨front, back, -, here, -⟩ := h
  exact here

theorem First.mem {β : Type} {P : β → Prop} {l : List β} {x : β} (h : First P l x) : x ∈ l := by
  obtain ⟨front, back, rfl, -⟩ := h
  exact List.mem_append_right _ (List.mem_cons_self ..)

theorem findSome?_flatMap {β γ δ : Type} {l : List β} {f : β → List γ} {g : γ → Option δ}
    {k : β → Option δ} (each : ∀ a ∈ l, (f a).findSome? g = k a) :
    (l.flatMap f).findSome? g = l.findSome? k := by
  induction l with
  | nil => rfl
  | cons a l ih =>
    obtain ⟨here, rest⟩ := List.forall_mem_cons.1 each
    rw [List.flatMap_cons, List.findSome?_append, here, ih rest, List.findSome?_cons]
    cases k a <;> rfl

/-- What is asked of an inner node, apart from room for its children. -/
inductive Rule where
  | counted
  | ordered
  | several
  | enough
  deriving DecidableEq, Repr

/-- The rules in the order in which they are tried. -/
def Rule.all : List Rule :=
  [.counted, .ordered, .several, .enough]

def Storage.Breaks (s : Storage α) : Rule → Prop
  | .counted => s.children.length ≠ s.count
  | .ordered => ¬ (s.children.map (·.1)).Pairwise (· < ·) ∨ s.held ≠ s.children.map (·.1)
  | .several => s.count < 2
  | .enough => s.count < s.layout.minimum ∧ s.layout ≠ .keyed4

instance (s : Storage α) : DecidablePred s.Breaks
  | .counted => inferInstanceAs (Decidable (_ ≠ _))
  | .ordered => inferInstanceAs (Decidable (_ ∨ _))
  | .several => inferInstanceAs (Decidable (_ < _))
  | .enough => inferInstanceAs (Decidable (_ ∧ _))

def Rule.report (path : Bytes) (s : Storage α) : Rule → Violation
  | .counted => .countMismatch path (.inner s.layout) s.count s.children.length
  | .ordered => .unorderedKeys path (s.children.map (·.1))
  | .several => .underfull path s.count
  | .enough => .belowMinimum path (.inner s.layout) s.count

theorem Rule.report_find?_cons (path : Bytes) (s : Storage α) (r : Rule) (rs : List Rule) :
    ((r :: rs).find? fun r => s.Breaks r).map (report path s) =
      if s.Breaks r then some (r.report path s)
      else (rs.find? fun r => s.Breaks r).map (report path s) := by
  by_cases broken : s.Breaks r <;> simp [broken]

theorem Violation.ofStorage?_eq_find? {s : Storage α} (room : s.count ≤ s.width) (path : Bytes) :
    ofStorage? path s = (Rule.all.find? fun r => s.Breaks r).map (Rule.report path s) := by
  rw [ofStorage?, if_neg (Nat.not_lt.2 room), List.length_map, Rule.all,
    Rule.report_find?_cons, Rule.report_find?_cons, Rule.report_find?_cons,
    Rule.report_find?_cons]
  rfl

theorem Rule.mem_all (r : Rule) : r ∈ all := by
  cases r <;> decide

theorem Violation.ofStorage?_eq_some_iff {s : Storage α} (room : s.count ≤ s.width)
    {path : Bytes} {x : Violation} :
    ofStorage? path s = some x ↔ ∃ r, First s.Breaks Rule.all r ∧ x = r.report path s := by
  rw [ofStorage?_eq_find? room, Option.map_eq_some_iff]
  refine exists_congr fun r => and_congr ?_ eq_comm
  rw [List.find?_eq_some_iff_append, First]
  simp only [decide_eq_true_eq, Bool.not_eq_true', decide_eq_false_iff_not]
  constructor
  · rintro ⟨broken, front, back, same, kept⟩
    exact ⟨front, back, same, broken, kept⟩
  · rintro ⟨front, back, same, broken, kept⟩
    exact ⟨broken, front, back, same, kept⟩

theorem Violation.ofStorage?_eq_none_iff_keeps {s : Storage α} (room : s.count ≤ s.width)
    {path : Bytes} : ofStorage? path s = none ↔ ∀ r, ¬ s.Breaks r := by
  rw [ofStorage?_eq_find? room, Option.map_eq_none_iff, List.find?_eq_none]
  simp [Rule.mem_all]

/-- An inner node on the way of a check: the stems above it, each with the edge taken, and its
children. Leaves have no rules to keep. -/
structure Visit (V : Type) where
  above : List (Bytes × UInt8)
  storage : Storage (Node V)

namespace Visit

/-- The bytes that lead to the node, without its own stem. -/
def path (v : Visit V) : Bytes :=
  v.above.flatMap fun (stem, b) => stem ++ [b]

def below (stem : Bytes) (b : UInt8) (v : Visit V) : Visit V :=
  { v with above := (stem, b) :: v.above }

theorem path_below (stem : Bytes) (b : UInt8) (v : Visit V) :
    (v.below stem b).path = stem ++ [b] ++ v.path := by
  rw [path, below, List.flatMap_cons]
  rfl

end Visit

namespace Node

def visits : Node V → List (Visit V) :=
  fold (fun _ _ _ => []) fun stem s below =>
    ⟨[], s⟩ :: below.flatMap fun (b, vs) => vs.map (Visit.below stem b)

theorem visits_leaf (suffix : Bytes) (value : V) (hits : UInt64) :
    (leaf suffix value hits).visits = [] :=
  fold_leaf ..

theorem visits_inner (stem : Bytes) (s : Storage (Node V)) :
    (inner stem s).visits =
      ⟨[], s⟩ :: s.children.flatMap fun c => c.2.visits.map (Visit.below stem c.1) := by
  rw [visits, fold_inner, List.flatMap_map]

theorem each_iff_visits {P : Storage (Node V) → Prop} {n : Node V} :
    n.Each P ↔ ∀ v ∈ n.visits, P v.storage := by
  induction n using induct with
  | leaf suffix value hits =>
    rw [visits_leaf]
    exact iff_of_true (each_leaf ..) fun v hv => absurd hv List.not_mem_nil
  | inner stem s ih =>
    rw [each_inner, visits_inner, List.forall_mem_cons, List.forall_mem_flatMap]
    refine and_congr_right fun _ => forall₂_congr fun c hc => ?_
    rw [ih c hc, List.forall_mem_map]
    rfl

end Node

theorem Violation.ofNode?_eq_findSome? (n : Node V) (path : Bytes) :
    ofNode? n path = n.visits.findSome? fun v => ofStorage? (path ++ v.path) v.storage := by
  induction n using Node.induct generalizing path with
  | leaf suffix value hits =>
    rw [ofNode?_leaf, Node.visits_leaf]
    rfl
  | inner stem s ih =>
    rw [ofNode?_inner, Node.visits_inner, List.findSome?_cons]
    have here : path ++ (⟨[], s⟩ : Visit V).path = path := List.append_nil path
    rw [here, findSome?_flatMap fun c hc => ?_]
    · cases ofStorage? path s <;> rfl
    · rw [List.findSome?_map, ih c hc]
      refine congrArg (List.findSome? · c.2.visits) (funext fun v => ?_)
      rw [Function.comp, Visit.path_below]
      simp only [List.append_assoc, Visit.below]

namespace Violation

theorem inspect_leaf (suffix : Bytes) (value : V) (hits : UInt64) (buffer : Bytes) :
    inspect (.leaf suffix value hits) buffer = .ok buffer := by
  rw [inspect, Node.fold_leaf]

theorem inspect_inner (stem : Bytes) (s : Storage (Node V)) (buffer : Bytes) :
    inspect (.inner stem s) buffer =
      match ofStorage? buffer s with
      | some violation => .error violation
      | none => do
        let top ← s.children.foldlM (fun top c => do
          let top ← inspect c.2 (top ++ [c.1])
          return top.take (buffer.length + stem.length)) (buffer ++ stem)
        return top.take buffer.length := by
  rw [inspect, Node.fold_inner]
  simp only [List.foldlM_map]
  rfl

theorem foldlM_inspect {cs : List (UInt8 × Node V)}
    (each : ∀ c ∈ cs, ∀ buffer, inspect c.2 buffer = (ofNode? c.2 buffer).elim (.ok buffer) .error)
    {top : Bytes} {n : Nat} (length : top.length = n) :
    (cs.foldlM (fun top c => do
      let top ← inspect c.2 (top ++ [c.1])
      return top.take n) top : Except Violation Bytes) =
      (cs.findSome? fun c => ofNode? c.2 (top ++ [c.1])).elim (.ok top) .error := by
  induction cs with
  | nil => rfl
  | cons c cs ih =>
    obtain ⟨here, rest⟩ := List.forall_mem_cons.1 each
    rw [List.foldlM_cons, List.findSome?_cons, here]
    cases ofNode? c.2 (top ++ [c.1]) with
    | some violation => rfl
    | none =>
      -- a child that breaks no rule gives the buffer back, and its edge byte is cut off
      have cut : (top ++ [c.1]).take n = top := by rw [← length, List.take_left']; rfl
      change (List.foldlM _ ((top ++ [c.1]).take n) cs) = _
      rw [cut, ih rest]

theorem inspect_eq (n : Node V) (buffer : Bytes) :
    inspect n buffer = (ofNode? n buffer).elim (.ok buffer) .error := by
  induction n using Node.induct generalizing buffer with
  | leaf suffix value hits => rw [inspect_leaf, ofNode?_leaf]; rfl
  | inner stem s ih =>
    rw [inspect_inner, ofNode?_inner]
    cases ofStorage? buffer s with
    | some violation => rfl
    | none =>
      rw [foldlM_inspect ih List.length_append]
      rw [Option.none_or]
      cases s.children.findSome? fun c => ofNode? c.2 (buffer ++ stem ++ [c.1]) with
      | some violation => rfl
      | none => exact congrArg Except.ok List.take_left

end Violation

theorem Tree.inspect_eq_check (t : Tree V) : t.inspect = t.check := by
  obtain ⟨_ | root⟩ := t
  · rfl
  · rw [inspect, check]
    simp only [Violation.inspect_eq, Option.bind_some]
    cases Violation.ofNode? root [] <;> rfl

namespace Storage

variable {s : Storage α} {es : List (UInt8 × α)}

theorem Added.breaks_counted (h : s.Added es) (broken : s.Breaks .counted) :
    s.layout = .indexed48 ∧ ¬ (es.map (·.1)).Nodup := by
  constructor
  · by_contra other
    exact broken (h.steady.length_children other)
  · intro distinct
    exact broken (length_children (h.sound distinct).1)

theorem Added.breaks_ordered (h : s.Added es) (broken : s.Breaks .ordered) :
    (s.layout = .keyed4 ∨ s.layout = .keyed16) ∧ ¬ (s.children.map (·.1)).Nodup := by
  have unordered : ¬ (s.children.map (·.1)).Pairwise (· < ·) :=
    broken.resolve_right (not_not.2 h.steady.held_eq)
  have keyed : s.layout = .keyed4 ∨ s.layout = .keyed16 := by
    cases s with
    | keyed4 s => exact .inl rfl
    | keyed16 s => exact .inr rfl
    | indexed48 s => exact absurd (Indexed.ascending_children s).keys unordered
    | direct256 s => exact absurd (Direct.ascending_children s).keys unordered
  refine ⟨keyed, fun distinct => unordered ?_⟩
  rw [← h.steady.held_eq, (h.held_perm keyed).nodup_iff] at distinct
  exact (ascending_children (h.sound distinct).1).keys

end Storage

theorem Node.added_of_addChild {s : Storage (Node V)} {es : List (UInt8 × Node V)} {stem : Bytes}
    {b : UInt8} {c : Node V} {o : Outcome (Node V) Unit} (h : s.Added es)
    (done : (inner stem s).addChild b c = .ok o) :
    ∃ t, o.after = inner stem t ∧ t.Added ((b, c) :: es) := by
  rw [addChild] at done
  obtain ⟨found, -, done⟩ := Checked.exists_of_bind_eq_ok done
  obtain ⟨-, -, done⟩ := Checked.exists_of_bind_eq_ok done
  split at done
  · obtain ⟨t, added, rfl⟩ := Checked.exists_of_map_eq_ok done
    exact ⟨t, rfl, h.add added⟩
  · obtain ⟨larger, grown, done⟩ := Checked.exists_of_bind_eq_ok done
    obtain ⟨t, added, rfl⟩ := Checked.exists_of_map_eq_ok done
    exact ⟨t, rfl, (h.grow grown).add added⟩

namespace Tree

def visits (t : Tree V) : List (Visit V) :=
  t.root.elim [] Node.visits

/-- The children of every inner node were added one by one, whether or not their bytes differ. -/
def Assembled (t : Tree V) : Prop :=
  ∀ n ∈ t.root, n.Each fun s => ∃ es, s.Added es

variable {t : Tree V}

theorem Assembled.added (h : t.Assembled) {v : Visit V} (hv : v ∈ t.visits) :
    ∃ es, v.storage.Added es := by
  obtain ⟨_ | root⟩ := t
  · exact absurd hv List.not_mem_nil
  · exact Node.each_iff_visits.1 (h root rfl) v hv

theorem check_eq_findSome? (t : Tree V) :
    t.check = (t.visits.findSome? fun v => Violation.ofStorage? v.path v.storage).elim (.ok ())
      .error := by
  obtain ⟨_ | root⟩ := t
  · rfl
  · simp only [check, Option.bind_some, Violation.ofNode?_eq_findSome?, List.nil_append]
    change _ = (root.visits.findSome? _).elim _ _
    cases root.visits.findSome? fun v => Violation.ofStorage? v.path v.storage <;> rfl

section Assembled

variable (h : t.Assembled)

include h

theorem Assembled.count_le {v : Visit V} (hv : v ∈ t.visits) :
    v.storage.count ≤ v.storage.width := by
  obtain ⟨es, added⟩ := h.added hv
  exact added.steady.count_le

theorem Assembled.check_eq_ok_iff_keeps :
    t.check = .ok () ↔ ∀ v ∈ t.visits, ∀ r, ¬ v.storage.Breaks r := by
  rw [check_eq_findSome?]
  refine Iff.trans (b := (t.visits.findSome? fun v => Violation.ofStorage? v.path v.storage) = none)
    ?_ ?_
  · cases t.visits.findSome? fun v => Violation.ofStorage? v.path v.storage <;> simp
  · rw [List.findSome?_eq_none_iff]
    exact forall₂_congr fun v hv => Violation.ofStorage?_eq_none_iff_keeps (h.count_le hv)

theorem Assembled.check_eq_error_iff {x : Violation} :
    t.check = .error x ↔ ∃ v r, First (fun v => ∃ r, v.storage.Breaks r) t.visits v ∧
      First v.storage.Breaks Rule.all r ∧ x = r.report v.path v.storage := by
  rw [check_eq_findSome?]
  refine Iff.trans
    (b := (t.visits.findSome? fun v => Violation.ofStorage? v.path v.storage) = some x) ?_ ?_
  · cases t.visits.findSome? fun v => Violation.ofStorage? v.path v.storage <;> simp
  rw [List.findSome?_eq_some_iff]
  constructor
  · rintro ⟨front, v, back, split, reported, kept⟩
    have here : v ∈ t.visits := split ▸ List.mem_append_right _ (List.mem_cons_self ..)
    obtain ⟨r, first, same⟩ := (Violation.ofStorage?_eq_some_iff (h.count_le here)).1 reported
    refine ⟨v, r, ⟨front, back, split, ⟨r, first.holds⟩, fun u hu => ?_⟩, first, same⟩
    have before : u ∈ t.visits := split ▸ List.mem_append_left _ hu
    exact not_exists.2 ((Violation.ofStorage?_eq_none_iff_keeps (h.count_le before)).1 (kept u hu))
  · rintro ⟨v, r, ⟨front, back, split, -, kept⟩, first, same⟩
    have here : v ∈ t.visits := split ▸ List.mem_append_right _ (List.mem_cons_self ..)
    refine ⟨front, v, back, split,
      (Violation.ofStorage?_eq_some_iff (h.count_le here)).2 ⟨r, first, same⟩, fun u hu => ?_⟩
    have before : u ∈ t.visits := split ▸ List.mem_append_left _ hu
    exact (Violation.ofStorage?_eq_none_iff_keeps (h.count_le before)).2
      (not_exists.1 (kept u hu))

theorem Assembled.exists_of_check_eq_error {x : Violation} (reported : t.check = .error x) :
    ∃ v ∈ t.visits, ∃ r, v.storage.Breaks r ∧ x = r.report v.path v.storage := by
  obtain ⟨v, r, node, rule, same⟩ := h.check_eq_error_iff.1 reported
  exact ⟨v, node.mem, r, rule.holds, same⟩

/-- A check accepts a tree exactly if no inner node breaks a rule, and else reports the first rule
that the first such node breaks, with the bytes that lead to the node. Without erasures no node
holds too many children, only an indexed node is miscounted, and only a keyed one unordered, and
both only where a byte was repeated. -/
theorem check_of_assembled :
    t.inspect = t.check ∧
    (t.check = .ok () ↔ ∀ v ∈ t.visits, ∀ r, ¬ v.storage.Breaks r) ∧
    (∀ x, t.check = .error x ↔ ∃ v r, First (fun v => ∃ r, v.storage.Breaks r) t.visits v ∧
      First v.storage.Breaks Rule.all r ∧ x = r.report v.path v.storage) ∧
    (∀ path shape n, t.check ≠ .error (.overCapacity path shape n)) ∧
    (∀ path shape n m, t.check = .error (.countMismatch path shape n m) →
      ∃ v ∈ t.visits, v.path = path ∧ v.storage.layout = .indexed48 ∧
        ∀ es, v.storage.Added es → ¬ (es.map (·.1)).Nodup) ∧
    (∀ path keys, t.check = .error (.unorderedKeys path keys) →
      ∃ v ∈ t.visits, v.path = path ∧
        (v.storage.layout = .keyed4 ∨ v.storage.layout = .keyed16) ∧
        v.storage.children.map (·.1) = keys ∧ ¬ keys.Nodup) := by
  refine ⟨inspect_eq_check t, h.check_eq_ok_iff_keeps, fun x => h.check_eq_error_iff,
    fun path shape n reported => ?_, fun path shape n m reported => ?_,
    fun path keys reported => ?_⟩
  · obtain ⟨v, -, r, -, same⟩ := h.exists_of_check_eq_error reported
    cases r <;> cases same
  · obtain ⟨v, hv, r, broken, same⟩ := h.exists_of_check_eq_error reported
    obtain ⟨es, added⟩ := h.added hv
    cases r <;> cases same
    exact ⟨v, hv, rfl, (added.breaks_counted broken).1,
      fun es added => (added.breaks_counted broken).2⟩
  · obtain ⟨v, hv, r, broken, same⟩ := h.exists_of_check_eq_error reported
    obtain ⟨es, added⟩ := h.added hv
    cases r <;> cases same
    exact ⟨v, hv, rfl, (added.breaks_ordered broken).1, rfl, (added.breaks_ordered broken).2⟩

end Assembled

def twice : Checked (Storage (Node Nat)) := do
  let s ← (Storage.empty .keyed4).add 3 (.leaf [] 10 1)
  s.add 3 (.leaf [4] 20 1)

def overTwice : Checked (Tree Nat) := do
  let s ← twice
  let r ← (Storage.empty .keyed4).add 5 (.leaf [6] 30 1)
  let r ← r.add 9 (.inner [2] s)
  return ⟨some (.inner [1] r)⟩

theorem children_of_twice {s : Storage (Node Nat)} (built : twice = .ok s) :
    s.children = [(3, .leaf [] 10 1), (3, .leaf [4] 20 1)] := by
  have listed : twice.map Storage.children =
      .ok [(3, .leaf [] 10 1), (3, .leaf [4] 20 1)] := rfl
  rw [built] at listed
  exact Except.ok.inj listed

theorem exists_of_overTwice {t : Tree Nat} (built : overTwice = .ok t) :
    ∃ s one r, twice = .ok s ∧ (Storage.empty .keyed4).add 5 (.leaf [6] 30 1) = .ok one ∧
      one.add 9 (.inner [2] s) = .ok r ∧ t = ⟨some (.inner [1] r)⟩ := by
  obtain ⟨s, low, built⟩ := Checked.exists_of_bind_eq_ok built
  obtain ⟨one, first, built⟩ := Checked.exists_of_bind_eq_ok built
  obtain ⟨r, second, built⟩ := Checked.exists_of_bind_eq_ok built
  exact ⟨s, one, r, low, first, second, (Except.ok.inj built).symm⟩

theorem assembled_of_overTwice {t : Tree Nat} (built : overTwice = .ok t) : t.Assembled := by
  obtain ⟨s, one, r, low, first, second, rfl⟩ := exists_of_overTwice built
  have above : r.Added [(9, .inner [2] s), (5, .leaf [6] 30 1)] :=
    .add (.add (.empty _) first) second
  have below : (Node.inner [2] s).Each fun s => ∃ es, s.Added es := by
    obtain ⟨single, third, fourth⟩ := Checked.exists_of_bind_eq_ok low
    refine Node.each_inner.2 ⟨⟨_, .add (.add (.empty _) third) fourth⟩, ?_⟩
    simp [children_of_twice low, Node.each_leaf]
  intro n root
  obtain rfl := Option.some.inj root
  refine Node.each_inner.2 ⟨⟨_, above⟩, fun c hc => ?_⟩
  have among := ((above.sound (by simp)).2 c).1 hc
  simp only [List.mem_cons, List.not_mem_nil, or_false] at among
  rcases among with rfl | rfl
  · exact below
  · exact Node.each_leaf ..

theorem check_overTwice {t : Tree Nat} (built : overTwice = .ok t) :
    t.check = .error (.unorderedKeys [1, 9] [3, 3]) := by
  obtain ⟨s, one, r, low, first, second, rfl⟩ := exists_of_overTwice built
  have below : twice.map (Violation.ofStorage? [1, 9]) =
      .ok (some (.unorderedKeys [1, 9] [3, 3])) := rfl
  -- what the root's own storage shows does not depend on what `s` is
  have above : ((Storage.empty .keyed4).add 5 (Node.leaf [6] 30 1) >>=
      Storage.add 9 (.inner [2] s)).map (fun r => (Violation.ofStorage? [] r, r.children)) =
        .ok (none, [(5, .leaf [6] 30 1), (9, .inner [2] s)]) := rfl
  rw [low] at below
  rw [first, Checked.ok_bind, second] at above
  obtain ⟨here, children⟩ := Prod.mk.inj (Except.ok.inj above)
  have broken : Violation.ofNode? (.inner [2] s) [1, 9] =
      some (.unorderedKeys [1, 9] [3, 3]) := by
    rw [Violation.ofNode?_inner, Except.ok.inj below, Option.some_or]
  simp [check, Violation.ofNode?_inner, Violation.ofNode?_leaf, here, children, broken]

theorem check_of_assembled_twice :
    ∃ t : Tree Nat, t.Assembled ∧ t.check = .error (.unorderedKeys [1, 9] [3, 3]) ∧
      ∃ v ∈ t.visits, v.path = [1, 9] ∧
        (v.storage.layout = .keyed4 ∨ v.storage.layout = .keyed16) ∧
        v.storage.children.map (·.1) = [3, 3] ∧ ¬ [(3 : UInt8), 3].Nodup := by
  obtain ⟨t, built⟩ := Checked.exists_of_isOk (x := overTwice) rfl
  have assembled : t.Assembled := assembled_of_overTwice built
  have reported := check_overTwice built
  obtain ⟨-, -, -, -, -, unordered⟩ := check_of_assembled assembled
  exact ⟨t, assembled, reported, unordered [1, 9] [3, 3] reported⟩

end Tree

end AdaptiveRadix
