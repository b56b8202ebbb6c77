import AdaptiveRadix.Bytes
import Mathlib.Tactic.Common

/-!
Ascending lists of bytes with what stands under them, as the storages list their children. Such a
list is known by its members alone, so an operation on a storage is described by what it makes of
the members.
-/

namespace AdaptiveRadix.Edges

variable {α : Type} {l m : List (UInt8 × α)} {b : UInt8} {c d : α}

def Ascending (l : List (UInt8 × α)) : Prop :=
  l.Pairwise (·.1 < ·.1)

/-- `m` is `l` with `c` under a byte that had nothing. -/
def Inserted (b : UInt8) (c : α) (l m : List (UInt8 × α)) : Prop :=
  (∀ d, (b, d) ∉ l) ∧ ∀ e, e ∈ m ↔ e = (b, c) ∨ e ∈ l

/-- `m` is `l` with `c` in place of what stood under `b`. -/
def Replaced (b : UInt8) (c : α) (l m : List (UInt8 × α)) : Prop :=
  (∃ d, (b, d) ∈ l) ∧ ∀ e, e ∈ m ↔ e = (b, c) ∨ e ∈ l ∧ e.1 ≠ b

/-- `m` is `l` without `c`, which stood under `b`. -/
def Erased (b : UInt8) (c : α) (l m : List (UInt8 × α)) : Prop :=
  (b, c) ∈ l ∧ ∀ e, e ∈ m ↔ e ∈ l ∧ e.1 ≠ b

theorem Ascending.keys (h : Ascending l) : (l.map (·.1)).Pairwise (· < ·) :=
  List.pairwise_map.2 h

theorem Ascending.nodup_keys (h : Ascending l) : (l.map (·.1)).Nodup :=
  h.keys.imp fun lt => UInt8.ne_of_lt lt

theorem Ascending.nodup (h : Ascending l) : l.Nodup :=
  List.Pairwise.imp (fun lt => ne_of_apply_ne Prod.fst (UInt8.ne_of_lt lt)) h

theorem Ascending.eq_of_mem (h : Ascending l) (hc : (b, c) ∈ l) (hd : (b, d) ∈ l) : c = d := by
  by_contra different
  obtain ⟨i, hi, hci⟩ := List.getElem_of_mem hc
  obtain ⟨j, hj, hdj⟩ := List.getElem_of_mem hd
  have order := List.pairwise_iff_getElem.1 h
  rcases Nat.lt_trichotomy i j with lt | rfl | lt
  · have := order i j hi hj lt
    simp [hci, hdj] at this
  · exact different (congrArg Prod.snd (hci.symm.trans hdj))
  · have := order j i hj hi lt
    simp [hci, hdj] at this

theorem Ascending.ext (hl : Ascending l) (hm : Ascending m) (h : ∀ e, e ∈ l ↔ e ∈ m) : l = m :=
  ((List.perm_ext_iff_of_nodup hl.nodup hm.nodup).2 h).eq_of_pairwise
    (fun _ _ _ _ ab ba => absurd ba (UInt8.lt_asymm ab)) hl hm

theorem Ascending.lookup_eq_some_iff (h : Ascending l) : l.lookup b = some c ↔ (b, c) ∈ l := by
  induction l with
  | nil => simp
  | cons e l ih =>
    obtain ⟨a, d⟩ := e
    obtain ⟨first, rest⟩ := List.pairwise_cons.1 h
    rw [List.lookup_cons, List.mem_cons]
    by_cases same : b = a
    · subst same
      have apart : (b, c) ∉ l := fun mem => UInt8.lt_irrefl b (first _ mem)
      simp [apart, eq_comm]
    · rw [beq_eq_false_iff_ne.2 same]
      simp [same, ih rest]

theorem lookup_eq_none_iff : l.lookup b = none ↔ ∀ d, (b, d) ∉ l := by
  rw [List.lookup_eq_none_iff]
  constructor
  · intro h d hd
    simpa using h _ hd
  · rintro h ⟨a, d⟩ hd
    refine bne_iff_ne.2 fun same => h d ?_
    rwa [same]

theorem Inserted.perm (h : Inserted b c l m) (hl : Ascending l) (hm : Ascending m) :
    m.Perm ((b, c) :: l) := by
  have nodup : ((b, c) :: l).Nodup := List.nodup_cons.2 ⟨h.1 c, hl.nodup⟩
  exact (List.perm_ext_iff_of_nodup hm.nodup nodup).2 fun e => by rw [h.2, List.mem_cons]

theorem Inserted.length (h : Inserted b c l m) (hl : Ascending l) (hm : Ascending m) :
    m.length = l.length + 1 :=
  (h.perm hl hm).length_eq

theorem Erased.inserted (h : Erased b c l m) (hl : Ascending l) : Inserted b c m l := by
  refine ⟨fun d hd => ((h.2 _).1 hd).2 rfl, fun e => ?_⟩
  rw [h.2]
  constructor
  · intro he
    by_cases same : e.1 = b
    · obtain ⟨a, d⟩ := e
      subst same
      exact .inl (congrArg _ (hl.eq_of_mem he h.1))
    · exact .inr ⟨he, same⟩
  · rintro (rfl | he)
    · exact h.1
    · exact he.1

theorem Erased.length (h : Erased b c l m) (hl : Ascending l) (hm : Ascending m) :
    l.length = m.length + 1 :=
  (h.inserted hl).length hm hl

theorem Erased.eq_filter (h : Erased b c l m) (hl : Ascending l) (hm : Ascending m) :
    m = l.filter (·.1 ≠ b) := by
  apply hm.ext (hl.filter _)
  intro e
  rw [h.2, List.mem_filter]
  simp

theorem Replaced.exists_rest (h : Replaced b c l m) (hl : Ascending l) (held : (b, d) ∈ l) :
    ∃ rest, Ascending rest ∧ Erased b d l rest ∧ Inserted b c rest m := by
  have without (e : UInt8 × α) : e ∈ l.filter (·.1 ≠ b) ↔ e ∈ l ∧ e.1 ≠ b := by
    simp [List.mem_filter]
  exact ⟨_, hl.filter _, ⟨held, without⟩,
    fun d hd => ((without _).1 hd).2 rfl, fun e => by rw [h.2, without]⟩

theorem Replaced.length (h : Replaced b c l m) (hl : Ascending l) (hm : Ascending m) :
    m.length = l.length := by
  obtain ⟨d, hd⟩ := h.1
  obtain ⟨rest, sorted, old, new⟩ := h.exists_rest hl hd
  rw [new.length sorted hm, old.length hl sorted]

theorem Ascending.map {β : Type} (h : Ascending l) (f : α → β) :
    Ascending (l.map fun c => (c.1, f c.2)) :=
  List.pairwise_map.2 h

theorem Replaced.map_eq {β : Type} {f : α → β} {g : UInt8 → α → β} (h : Replaced b c l m)
    (hl : Ascending l) (hm : Ascending m)
    (held : (b, d) ∈ l) (here : f c = g b d) (others : ∀ e ∈ l, e.1 ≠ b → f e.2 = g e.1 e.2) :
    (m.map fun e => (e.1, f e.2)) = l.map fun e => (e.1, g e.1 e.2) := by
  have left : Ascending (m.map fun e => (e.1, f e.2)) := hm.map f
  have right : Ascending (l.map fun e => (e.1, g e.1 e.2)) := List.pairwise_map.2 hl
  refine left.ext right fun e => ?_
  rw [List.mem_map, List.mem_map]
  constructor
  · rintro ⟨x, hx, rfl⟩
    rcases (h.2 x).1 hx with rfl | ⟨hx, apart⟩
    · exact ⟨(b, d), held, congrArg _ here.symm⟩
    · exact ⟨x, hx, congrArg _ (others x hx apart).symm⟩
  · rintro ⟨x, hx, rfl⟩
    by_cases same : x.1 = b
    · obtain ⟨a, x⟩ := x
      obtain rfl : a = b := same
      obtain rfl := hl.eq_of_mem hx held
      exact ⟨(a, c), (h.2 _).2 (.inl rfl), congrArg _ here⟩
    · exact ⟨x, (h.2 x).2 (.inr ⟨hx, same⟩), congrArg _ (others x hx same)⟩

theorem Inserted.eq_of_erased {r : List (UInt8 × α)} (inserted : Inserted b c l m)
    (erased : Erased b d m r) (hl : Ascending l) (hr : Ascending r) : r = l := by
  refine hr.ext hl fun e => ?_
  rw [erased.2, inserted.2]
  constructor
  · rintro ⟨rfl | he, apart⟩
    · exact absurd rfl apart
    · exact he
  · intro he
    refine ⟨.inr he, ?_⟩
    rintro rfl
    exact inserted.1 e.2 he

def table (f : UInt8 → Option α) : List (UInt8 × α) :=
  Bytes.all.filterMap fun b => (f b).map (b, ·)

theorem mem_table {f : UInt8 → Option α} : (b, c) ∈ table f ↔ f b = some c := by
  simp only [table, List.mem_filterMap, Option.map_eq_some_iff, Prod.mk.injEq]
  constructor
  · rintro ⟨a, -, d, hd, rfl, rfl⟩
    exact hd
  · exact fun h => ⟨b, Bytes.mem_all b, c, h, rfl, rfl⟩

theorem ascending_table (f : UInt8 → Option α) : Ascending (table f) := by
  refine List.pairwise_filterMap.2 (Bytes.pairwise_all.imp fun {a b} lt x hx y hy => ?_)
  obtain ⟨-, -, rfl⟩ := Option.map_eq_some_iff.1 hx
  obtain ⟨-, -, rfl⟩ := Option.map_eq_some_iff.1 hy
  exact lt

theorem length_table (f : UInt8 → Option α) :
    (table f).length = (Bytes.all.filter fun b => (f b).isSome).length := by
  rw [table, List.length_filterMap_eq_countP, List.countP_eq_length_filter]
  simp only [Option.isSome_map]

theorem length_le_of_nodup {bs : Bytes} (h : bs.Nodup) : bs.length ≤ 256 := by
  have within : bs ⊆ Bytes.all := fun b _ => Bytes.mem_all b
  have := h.length_le_of_subset within
  rwa [Bytes.all, List.length_map, List.length_range] at this

theorem Ascending.length_le (h : Ascending l) : l.length ≤ 256 := by
  have := length_le_of_nodup h.nodup_keys
  rwa [List.length_map] at this

theorem Ascending.length_lt (h : Ascending l) (absent : ∀ d, (b, d) ∉ l) : l.length < 256 := by
  have unused : b ∉ l.map (·.1) := by
    intro mem
    obtain ⟨⟨a, d⟩, hd, rfl⟩ := List.mem_map.1 mem
    exact absent d hd
  have := length_le_of_nodup (List.nodup_cons.2 ⟨unused, h.nodup_keys⟩)
  rwa [List.length_cons, List.length_map] at this

theorem foldr_add_append (f : α → Nat) (l m : List α) :
    (l ++ m).foldr (fun a sum => f a + sum) 0 =
      l.foldr (fun a sum => f a + sum) 0 + m.foldr (fun a sum => f a + sum) 0 := by
  induction l with
  | nil => exact (Nat.zero_add _).symm
  | cons a l ih => exact (congrArg (f a + ·) ih).trans (Nat.add_assoc ..).symm

theorem foldr_add_perm (f : α → Nat) {l m : List α} (h : l.Perm m) :
    l.foldr (fun a sum => f a + sum) 0 = m.foldr (fun a sum => f a + sum) 0 := by
  induction h with
  | nil => rfl
  | cons a _ ih => exact congrArg (f a + ·) ih
  | swap a b l => exact Nat.add_left_comm ..
  | trans _ _ left right => exact left.trans right

def total (f : α → Nat) (l : List (UInt8 × α)) : Nat :=
  l.foldr (fun c sum => f c.2 + sum) 0

@[simp] theorem total_nil (f : α → Nat) : total f ([] : List (UInt8 × α)) = 0 := rfl

@[simp] theorem total_cons (f : α → Nat) (c : UInt8 × α) (l : List (UInt8 × α)) :
    total f (c :: l) = f c.2 + total f l := rfl

theorem total_perm (f : α → Nat) (h : l.Perm m) : total f l = total f m :=
  foldr_add_perm (fun c : UInt8 × α => f c.2) h

theorem length_flatMap {β : Type} {f : UInt8 × α → List β} {k : α → Nat}
    (each : ∀ c, (f c).length = k c.2) (l : List (UInt8 × α)) :
    (l.flatMap f).length = total k l := by
  induction l with
  | nil => rfl
  | cons c l ih => rw [List.flatMap_cons, List.length_append, each, ih, total_cons]

theorem le_total_of_mem (f : α → Nat) {c : UInt8 × α} (hc : c ∈ l) : f c.2 ≤ total f l := by
  induction l with
  | nil => contradiction
  | cons e l ih =>
    rw [total_cons]
    rcases List.mem_cons.1 hc with rfl | hc
    · exact Nat.le_add_right _ _
    · exact Nat.le_add_left_of_le (ih hc)

theorem total_add_length_le {f g : α → Nat} (each : ∀ c ∈ l, f c.2 < g c.2) :
    total f l + l.length ≤ total g l := by
  induction l with
  | nil => exact Nat.le_refl _
  | cons c l ih =>
    obtain ⟨here, rest⟩ := List.forall_mem_cons.1 each
    have := ih rest
    rw [total_cons, total_cons, List.length_cons]
    omega

theorem Inserted.total_eq (h : Inserted b c l m) (hl : Ascending l) (hm : Ascending m)
    (f : α → Nat) : total f m = f c + total f l :=
  total_perm f (h.perm hl hm)

theorem Erased.total_eq (h : Erased b c l m) (hl : Ascending l) (hm : Ascending m)
    (f : α → Nat) : total f l = f c + total f m :=
  (h.inserted hl).total_eq hm hl f

theorem Replaced.total_eq (h : Replaced b c l m) (held : (b, d) ∈ l) (hl : Ascending l)
    (hm : Ascending m) (f : α → Nat) :
    ∃ others, total f l = f d + others ∧ total f m = f c + others := by
  obtain ⟨rest, sorted, old, new⟩ := h.exists_rest hl held
  exact ⟨_, old.total_eq hl sorted f, new.total_eq sorted hm f⟩

end AdaptiveRadix.Edges
