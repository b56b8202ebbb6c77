import AdaptiveRadix.Node.Sound
import AdaptiveRadix.Proofs.Storage.Built

/-!
How full the inner nodes of a tree are. A rule on layouts and numbers of children that survives the
steps an inner node can take survives every operation on a tree.
-/

namespace AdaptiveRadix

namespace Layout

/-- A rule on how many children go with a layout that no single step breaks. -/
structure Stable (rule : Layout → Nat → Prop) : Prop where
  fork : rule .keyed4 2
  several : ∀ l n, rule l n → 2 ≤ n
  add : ∀ l n, rule l n → n < l.width → rule l (n + 1)
  grow : ∀ l m, rule l l.width → l.larger? = some m → rule m (l.width + 1)
  erase : ∀ l n, rule l (n + 1) → l.minimum ≤ n → rule l n
  shrink : ∀ l m n, rule m (n + 1) → l.larger? = some m → n < m.minimum → 2 ≤ n → rule l n

theorem two_le_minimum (l : Layout) : 2 ≤ l.minimum := by
  cases l <;> decide

theorem minimum_le_width (l : Layout) : l.minimum ≤ l.width := by
  cases l <;> decide

theorem eq_of_larger? {a b c : Layout} (ha : a.larger? = some c) (hb : b.larger? = some c) :
    a = b := by
  cases a <;> cases ha <;> cases b <;> cases hb <;> rfl

theorem stable_several : Stable fun _ n => 2 ≤ n where
  fork := Nat.le_refl 2
  several _ _ h := h
  add _ _ h _ := Nat.le_succ_of_le h
  grow _ _ h _ := Nat.le_succ_of_le h
  erase l _ _ enough := Nat.le_trans l.two_le_minimum enough
  shrink _ _ _ _ _ _ several := several

theorem stable_minimum : Stable fun l n => l.minimum ≤ n where
  fork := Nat.le_refl 2
  several l _ h := Nat.le_trans l.two_le_minimum h
  add _ _ h _ := Nat.le_succ_of_le h
  grow _ _ _ larger := Nat.le_of_eq (minimum_of_larger? larger)
  erase _ _ _ enough := enough
  shrink l m n h larger _ _ := by
    rw [minimum_of_larger? larger] at h
    exact Nat.le_trans l.minimum_le_width (Nat.le_of_succ_le_succ h)

end Layout

namespace Node

variable {V : Type} {rule : Layout → Nat → Prop}

def Each (P : Storage (Node V) → Prop) : Node V → Prop :=
  fold (fun _ _ _ => True) fun _ s below => P s ∧ ∀ b ∈ below, b.2

theorem each_leaf {P : Storage (Node V) → Prop} (suffix : Bytes) (value : V) (hits : UInt64) :
    (leaf suffix value hits).Each P := by
  rw [Each, fold_leaf]
  trivial

theorem each_inner {P : Storage (Node V) → Prop} {stem : Bytes} {s : Storage (Node V)} :
    (inner stem s).Each P ↔ P s ∧ ∀ c ∈ s.children, c.2.Each P := by
  rw [Each, fold_inner, List.forall_mem_map]

theorem Each.mono {P Q : Storage (Node V) → Prop} {n : Node V}
    (implies : ∀ s, s.Sound → P s → Q s) (h : n.Sound) (each : n.Each P) : n.Each Q := by
  induction n using induct with
  | leaf suffix value hits => exact each_leaf ..
  | inner stem s ih =>
    obtain ⟨sound, below⟩ := sound_inner.1 h
    obtain ⟨here, rest⟩ := each_inner.1 each
    exact each_inner.2 ⟨implies s sound here, fun c hc => ih c hc (below c hc) (rest c hc)⟩

def Built : Node V → Prop :=
  Each Storage.Built

theorem built_leaf (suffix : Bytes) (value : V) (hits : UInt64) : (leaf suffix value hits).Built :=
  each_leaf ..

theorem built_inner {stem : Bytes} {s : Storage (Node V)} :
    (inner stem s).Built ↔ s.Built ∧ ∀ c ∈ s.children, c.2.Built :=
  each_inner

/-- Every inner node has a number of children that goes with its layout. -/
def Filled (rule : Layout → Nat → Prop) : Node V → Prop :=
  Each fun s => rule s.layout s.count

theorem filled_leaf (suffix : Bytes) (value : V) (hits : UInt64) :
    (leaf suffix value hits).Filled rule :=
  each_leaf ..

theorem filled_inner {stem : Bytes} {s : Storage (Node V)} :
    (inner stem s).Filled rule ↔ rule s.layout s.count ∧ ∀ c ∈ s.children, c.2.Filled rule :=
  each_inner

/-- At every inner node the keys below part. -/
def Forked : Node V → Prop :=
  Filled fun _ n => 2 ≤ n

theorem Filled.forked {n : Node V} (h : n.Sound) (stable : Layout.Stable rule)
    (filled : n.Filled rule) : n.Forked :=
  Each.mono (fun _ _ here => stable.several _ _ here) h filled

section Replaced

variable {stem : Bytes} {s t : Storage (Node V)} {b : UInt8} {c : Node V}
  (hn : (inner stem s).Sound)

include hn

theorem sound_of_replaced (sound : t.Sound) (hc : c.Sound)
    (replaced : Edges.Replaced b c s.children t.children) : (inner stem t).Sound := by
  refine sound_inner.2 ⟨sound, fun e he => ?_⟩
  rcases (replaced.2 e).1 he with rfl | ⟨he, -⟩
  · exact hc
  · exact (sound_inner.1 hn).2 e he

theorem filled_of_replaced (filled : (inner stem s).Filled rule) (sound : t.Sound)
    (same : t.layout = s.layout) (hc : c.Filled rule)
    (replaced : Edges.Replaced b c s.children t.children) : (inner stem t).Filled rule := by
  obtain ⟨here, below⟩ := filled_inner.1 filled
  refine filled_inner.2 ⟨?_, fun e he => ?_⟩
  · rw [same, Storage.count_of_replaced (sound_inner.1 hn).1 sound replaced]
    exact here
  · rcases (replaced.2 e).1 he with rfl | ⟨he, -⟩
    · exact hc
    · exact below e he

end Replaced

theorem built_of_replaced {stem : Bytes} {s t : Storage (Node V)} {b : UInt8} {c : Node V}
    (built : (inner stem s).Built) (put : s.replace b c = .ok t) (hc : c.Built)
    (replaced : Edges.Replaced b c s.children t.children) : (inner stem t).Built := by
  obtain ⟨here, below⟩ := built_inner.1 built
  refine built_inner.2 ⟨here.replace put, fun e he => ?_⟩
  rcases (replaced.2 e).1 he with rfl | ⟨he, -⟩
  · exact hc
  · exact below e he

theorem sound_withStem {n : Node V} {stem : Bytes} : (n.withStem stem).Sound ↔ n.Sound := by
  cases n with
  | leaf suffix value hits => exact iff_of_true (sound_leaf ..) (sound_leaf ..)
  | inner old s => rw [withStem, sound_inner, sound_inner]

theorem each_withStem {P : Storage (Node V) → Prop} {n : Node V} {stem : Bytes} :
    (n.withStem stem).Each P ↔ n.Each P := by
  cases n with
  | leaf suffix value hits => exact iff_of_true (each_leaf ..) (each_leaf ..)
  | inner old s => rw [withStem, each_inner, each_inner]

theorem filled_withStem {n : Node V} {stem : Bytes} :
    (n.withStem stem).Filled rule ↔ n.Filled rule :=
  each_withStem

theorem built_withStem {n : Node V} {stem : Bytes} : (n.withStem stem).Built ↔ n.Built :=
  each_withStem

end Node

end AdaptiveRadix
