import AdaptiveRadix.Proofs.Node.Descent
import AdaptiveRadix.Proofs.Storage.Exchange
import AdaptiveRadix.Tree.Descent

/-!
A tree sees of a cursor what the cursor has left, and of that what lies past the depth. Where the
bytes lead over an edge of the root, writing in the whole tree is writing in the child alone, at the
depth of the child, and putting it back.
-/

namespace AdaptiveRadix

open Edges

variable {V : Type}

namespace Node

variable {repetition : Repetition} {value : V} {o : Outcome (Node V) (Except KeyError UInt64)}

theorem answer_ne_outOfRange {n : Node V} {key : Bytes}
    (done : n.insert repetition value key = .ok o) (offset remaining : UInt64) :
    o.answer ≠ .error (.outOfRange offset remaining) := by
  induction n using induct_find? generalizing key o with
  | leaf suffix old hits =>
    by_cases same : key = suffix
    · subst same
      rw [insert_leaf_same] at done
      cases repetition with
      | refused =>
        cases done
        exact nofun
      | counted =>
        obtain ⟨bumped, -, rfl⟩ := Checked.exists_of_map_eq_ok done
        exact nofun
    · rcases Stem.prefix_or_parted suffix key with le | ge | ⟨p, a, as, b, bs, rfl, rfl, different⟩
      · rw [insert_leaf_nested ⟨same, .inr le⟩] at done
        cases done
        exact nofun
      · rw [insert_leaf_nested ⟨same, .inl ge⟩] at done
        cases done
        exact nofun
      · rw [insert_parted rfl different] at done
        obtain ⟨cut, -, rfl⟩ := Checked.exists_of_map_eq_ok done
        exact nofun
  | inner stem s ih =>
    rcases Stem.prefix_or_parted stem key with
      ⟨tail, rfl⟩ | ge | ⟨p, a, as, b, bs, rfl, rfl, different⟩
    · cases tail with
      | nil =>
        rw [List.append_nil, insert_inner_ends List.prefix_rfl] at done
        cases done
        exact nofun
      | cons b tail =>
        rw [insert_edge] at done
        obtain ⟨child?, found, done⟩ := Checked.exists_of_bind_eq_ok done
        cases child? with
        | none =>
          obtain ⟨added, -, rfl⟩ := Checked.exists_of_map_eq_ok done
          exact nofun
        | some child =>
          obtain ⟨below, inserted, done⟩ := Checked.exists_of_bind_eq_ok done
          obtain ⟨u, -, rfl⟩ := Checked.exists_of_map_eq_ok done
          -- the answer from below is handed up as it is
          change below.answer ≠ .error (.outOfRange offset remaining)
          exact ih b child found inserted
    · rw [insert_inner_ends ge] at done
      cases done
      exact nofun
    · rw [insert_parted rfl different] at done
      obtain ⟨cut, -, rfl⟩ := Checked.exists_of_map_eq_ok done
      exact nofun

end Node

namespace Tree

variable {t : Tree V} {key : Cursor} {depth : UInt64} {α β : Type}

section Within

variable (h : key.Within)

include h

theorem upsertAlong_eq (repetition : Repetition) (t : Tree V) (value : V) (depth : UInt64) :
    t.upsertAlong repetition key value depth = t.upsert repetition key value depth := by
  rw [upsertAlong, upsert]
  cases moved : key.advance depth with
  | error e => rfl
  | ok c =>
    cases t.root with
    | none => rfl
    | some root => simp only [root.insertAlong_eq repetition value (h.advance moved)]

theorem findAlong_eq (t : Tree V) : t.findAlong key = t.find? key := by
  rw [findAlong, find?]
  cases t.root with
  | none => rfl
  | some root => exact root.findAlong_eq h

theorem assignAlong_eq (t : Tree V) (value : V) : t.assignAlong key value = t.assign key value := by
  rw [assignAlong, assign]
  cases t.root with
  | none => rfl
  | some root => simp only [root.assignAlong_eq value h]

theorem deleteAlong_eq (t : Tree V) : t.deleteAlong key = t.delete key := by
  rw [deleteAlong, delete]
  cases t.root with
  | none => rfl
  | some root =>
    cases root with
    | leaf suffix value hits => rfl
    | inner stem s => simp only [(Node.inner stem s).removeAlong_eq h]

end Within

/-- Writing in a whole tree as writing in one child of its root, with the child put back. -/
structure Grafted (stem : Bytes) (s : Storage (Node V)) (b : UInt8) (child : Node V)
    (part whole : Checked (Outcome (Tree V) α)) : Prop where
  fault : ∀ e, part = .error e → whole = .error e
  done : ∀ o, part = .ok o → ∃ new u, o.after = ⟨some new⟩ ∧ s.replace b new = .ok u ∧
    u.layout = s.layout ∧ u.find? b = .ok (some new) ∧
    (s.Sound ∨ s.Built → Exchanged b child new s.children u.children) ∧
    whole = .ok ⟨o.answer, ⟨some (.inner stem u)⟩, o.events⟩

/-- A write with a cursor and a depth that depends on the bytes past both and on nothing else. -/
structure Transparent
    (write : Tree V → Cursor → UInt64 → Checked (Outcome (Tree V) (Except KeyError α)))
    (t : Tree V) (key : Cursor) (depth : UInt64) : Prop where
  refused : write t key depth =
      .ok (.unchanged t (.error (.outOfRange depth key.rest.length.toUInt64))) ↔
    key.rest.length < depth.toNat
  fresh : depth.toNat ≤ key.rest.length →
    write t key depth = write t (.ofBytes (key.rest.drop depth.toNat)) 0
  below : ∀ stem s b child tail, t.root = some (.inner stem s) → s.find? b = .ok (some child) →
    key.rest = stem ++ b :: tail →
    Grafted stem s b child (write ⟨some child⟩ key (stem.length + 1).toUInt64) (write t key 0)

theorem upsert_of_advance {repetition : Repetition} {value : V} {c : Cursor}
    (moved : key.advance depth = .ok c) :
    t.upsert repetition key value depth = t.upsert repetition (.ofBytes c.rest) value 0 := by
  rw [upsert, upsert, moved, Cursor.advance_zero]
  rfl

theorem upsert_ne_outOfRange {repetition : Repetition} {value : V} {c : Cursor}
    (moved : key.advance depth = .ok c) (offset remaining : UInt64) :
    t.upsert repetition key value depth ≠
      .ok (.unchanged t (.error (.outOfRange offset remaining))) := by
  rw [upsert, moved]
  intro refused
  cases root : t.root with
  | none => simp [root, Outcome.unchanged] at refused
  | some root =>
    simp only [*] at refused
    obtain ⟨o, done, same⟩ := Checked.exists_of_map_eq_ok refused
    exact Node.answer_ne_outOfRange done offset remaining (congrArg Outcome.answer same)

theorem grafted_upsert (h : key.Within) {stem tail : Bytes} {s : Storage (Node V)} {b : UInt8}
    {child : Node V} (root : t.root = some (.inner stem s)) (found : s.find? b = .ok (some child))
    (leads : key.rest = stem ++ b :: tail) (repetition : Repetition) (value : V) :
    Grafted stem s b child
      ((⟨some child⟩ : Tree V).upsert repetition key value (stem.length + 1).toUInt64)
      (t.upsert repetition key value 0) := by
  have passed : key.rest = stem ++ [b] ++ tail := by simp [leads]
  obtain ⟨c, moved, -, left⟩ := h.advance_past (stem ++ [b]) passed
  rw [List.length_append, List.length_singleton] at moved
  have part : (⟨some child⟩ : Tree V).upsert repetition key value (stem.length + 1).toUInt64 =
      return (← child.insert repetition value tail).mapAfter (⟨some ·⟩) := by
    rw [upsert, moved, ← left]
  have whole : t.upsert repetition key value 0 = do
      let below ← child.insert repetition value tail
      return ⟨below.answer, ⟨some (.inner stem (← s.replace b below.after))⟩, below.events⟩ := by
    rw [upsert, Cursor.advance_zero, root]
    simp only [leads, Node.insert_edge, found, Checked.ok_bind, bind_assoc, pure_bind]
    rfl
  rw [part, whole]
  cases inserted : child.insert repetition value tail with
  | error e => exact ⟨fun _ same => same, fun _ same => (by cases same)⟩
  | ok o =>
    refine ⟨fun _ same => (by cases same), fun p same => ?_⟩
    cases same
    obtain ⟨u, put, layout, reads, exchanged⟩ := Storage.exchange found o.after
    refine ⟨o.after, u, rfl, put, layout, reads, exchanged, ?_⟩
    simp only [Checked.ok_bind, put]
    rfl

theorem transparent_upsert (h : key.Within) (repetition : Repetition) (value : V) :
    Transparent (fun t key depth => t.upsert repetition key value depth) t key depth where
  refused := by
    rcases Nat.lt_or_ge key.rest.length depth.toNat with far | fits
    · refine iff_of_true ?_ far
      rw [upsert, h.advance_eq_error far]
      rfl
    · obtain ⟨c, moved, -⟩ := h.advance_eq_ok fits
      exact iff_of_false (upsert_ne_outOfRange moved _ _) (Nat.not_lt.2 fits)
  fresh fits := by
    obtain ⟨c, moved, -, left⟩ := h.advance_eq_ok fits
    rw [← left]
    exact upsert_of_advance moved
  below _ _ _ _ _ root found leads := grafted_upsert h root found leads repetition value

theorem mapAnswer_eq_error_iff {x : Checked (Outcome (Tree V) (Except KeyError α))} {f : α → β}
    {e : KeyError} :
    (return (← x).mapAnswer (Except.map f) : Checked (Outcome (Tree V) (Except KeyError β))) =
        .ok (.unchanged t (.error e)) ↔
      x = .ok (.unchanged t (.error e)) := by
  cases x with
  | error fault => exact iff_of_false nofun nofun
  | ok o =>
    obtain ⟨answer, after, events⟩ := o
    cases answer with
    | error e' => simp [Outcome.mapAnswer, Outcome.unchanged, Except.map]
    | ok a => simp [Outcome.mapAnswer, Outcome.unchanged, Except.map]

theorem Grafted.mapAnswer {stem : Bytes} {s : Storage (Node V)} {b : UInt8} {child : Node V}
    {part whole : Checked (Outcome (Tree V) α)} (h : Grafted stem s b child part whole)
    (f : α → β) :
    Grafted stem s b child (return (← part).mapAnswer f) (return (← whole).mapAnswer f) := by
  cases part with
  | error e =>
    rw [h.fault e rfl]
    exact ⟨fun _ same => same, fun _ same => (by cases same)⟩
  | ok o =>
    obtain ⟨new, u, after, put, layout, reads, exchanged, done⟩ := h.done o rfl
    rw [done]
    refine ⟨fun _ same => (by cases same), fun p same => ?_⟩
    cases same
    exact ⟨new, u, after, put, layout, reads, exchanged, rfl⟩

theorem Transparent.map
    {write : Tree V → Cursor → UInt64 → Checked (Outcome (Tree V) (Except KeyError α))}
    (h : Transparent write t key depth) (f : α → β) :
    Transparent (fun t key depth => return (← write t key depth).mapAnswer (Except.map f))
      t key depth where
  refused := mapAnswer_eq_error_iff.trans h.refused
  fresh fits := by simp only [h.fresh fits]
  below stem s b child tail root found leads :=
    (h.below stem s b child tail root found leads).mapAnswer _

/-- A cursor in the middle of a key and a depth below the root stand for the bytes that are left.
The operations that hand the cursor down are the same as those that hand the bytes down. -/
theorem transparent (t : Tree V) {key : Cursor} (h : key.Within) (value : V) (depth : UInt64) :
    Transparent (fun t key depth => t.insert key value depth) t key depth ∧
      Transparent (fun t key depth => t.record key value depth) t key depth ∧
      (t.insertAlong key value depth = t.insert key value depth ∧
        t.recordAlong key value depth = t.record key value depth ∧
        t.lookupAlong key = t.lookup key ∧ t.assignAlong key value = t.assign key value ∧
        t.hitsAlong key = t.hits key ∧ t.deleteAlong key = t.delete key) ∧
      t.lookup key = t.lookup (.ofBytes key.rest) ∧
      t.assign key value = t.assign (.ofBytes key.rest) value ∧
      t.hits key = t.hits (.ofBytes key.rest) ∧ t.delete key = t.delete (.ofBytes key.rest) := by
  refine ⟨(transparent_upsert h .refused value).map _, transparent_upsert h .counted value,
    ⟨?_, upsertAlong_eq h .counted t value depth, ?_, assignAlong_eq h t value, ?_,
      deleteAlong_eq h t⟩, rfl, rfl, rfl, rfl⟩
  · rw [insertAlong, upsertAlong_eq h, insert]
  · rw [lookupAlong, findAlong_eq h]
    rfl
  · rw [hitsAlong, findAlong_eq h]
    rfl

def sameByte : Checked (Storage (Node Nat)) := do
  (← (Storage.empty .keyed4).add 98 (.leaf [99] 10 1)).add 98 (.leaf [100] 20 1)

def midKey : Cursor :=
  ⟨[9, 97, 98, 7], 1⟩

theorem transparent_sameByte :
    ∃ s, sameByte = .ok s ∧ midKey.Within ∧
      Tree.insert ⟨some (.inner [97] s)⟩ midKey 30 4 =
        .ok (.unchanged ⟨some (.inner [97] s)⟩ (.error (.outOfRange 4 3))) ∧
      Tree.record ⟨some (.inner [97] s)⟩ midKey 30 1 =
        Tree.record ⟨some (.inner [97] s)⟩ (.ofBytes [98, 7]) 30 0 ∧
      ∃ o new u, Tree.insert ⟨some (.leaf [99] 10 1)⟩ midKey 30 2 = .ok o ∧
        o.after = ⟨some new⟩ ∧ s.replace 98 new = .ok u ∧
        Exchanged 98 (.leaf [99] 10 1) new s.children u.children ∧
        Tree.insert ⟨some (.inner [97] s)⟩ midKey 30 0 =
          .ok ⟨o.answer, ⟨some (.inner [97] u)⟩, o.events⟩ := by
  obtain ⟨s, twice⟩ := Checked.exists_of_isOk (x := sameByte) rfl
  have found : s.find? 98 = .ok (some (.leaf [99] 10 1)) := by
    have searched : (sameByte.bind fun s => s.find? 98) = .ok (some (.leaf [99] 10 1)) := rfl
    rwa [twice] at searched
  have built : s.Built := by
    obtain ⟨r, first, second⟩ := Checked.exists_of_bind_eq_ok twice
    exact .add (.add (.empty .keyed4) first) second
  have within : midKey.Within := ⟨by decide, by decide⟩
  let t : Tree Nat := ⟨some (.inner [97] s)⟩
  obtain ⟨o, part⟩ := Checked.exists_of_isOk
    (x := Tree.insert ⟨some (.leaf [99] 10 1)⟩ midKey 30 2) (by decide +kernel)
  obtain ⟨far, -⟩ := transparent t within 30 4
  obtain ⟨-, past, -⟩ := transparent t within 30 1
  obtain ⟨new, u, after, put, -, -, exchanged, whole⟩ :=
    (far.below [97] s 98 (.leaf [99] 10 1) [7] rfl found rfl).done o part
  exact ⟨s, twice, within, far.refused.2 (by decide), past.fresh (by decide), o, new, u, part,
    after, put, exchanged (.inr built), whole⟩

end Tree

end AdaptiveRadix
