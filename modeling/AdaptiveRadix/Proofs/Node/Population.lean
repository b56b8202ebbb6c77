import AdaptiveRadix.Proofs.Event
import AdaptiveRadix.Proofs.Node.Insertion
import AdaptiveRadix.Proofs.Node.Removal
import AdaptiveRadix.Proofs.Node.Search

/-!
How many inner nodes of a layout there are below a node, and how an operation changes that number:
by what its events say. A node that is merged with its last child had two children, so it has the
smallest layout, and a node that is shrunk just fits the smaller one.
-/

namespace AdaptiveRadix

namespace Node

open Edges Event

variable {V : Type} {n c : Node V} {s t : Storage (Node V)} {stem key : Bytes} {b : UInt8}
  {l : Layout} {events : List Event}

def population (l : Layout) : Node V → Nat :=
  fold (fun _ _ _ => 0) fun _ s below => l.one s.layout + total id below

theorem population_leaf (suffix : Bytes) (value : V) (hits : UInt64) :
    (leaf suffix value hits).population l = 0 :=
  fold_leaf ..

theorem population_inner (stem : Bytes) (s : Storage (Node V)) :
    (inner stem s).population l = l.one s.layout + total (population l) s.children := by
  rw [population, fold_inner, total, List.foldr_map]
  rfl

theorem population_withStem (n : Node V) (stem : Bytes) :
    (n.withStem stem).population l = n.population l := by
  cases n with
  | leaf suffix value hits => rw [withStem, population_leaf, population_leaf]
  | inner old s => rw [withStem, population_inner, population_inner]

theorem addNode_adds {f : Census → Nat} {g : Node V → Nat}
    (onLeaf : ∀ suffix value hits level c,
      f (c.addLeaf hits level) = f c + g (leaf suffix value hits))
    (onInner : ∀ stem s level c,
      f (c.addInner s.layout s.count level) + total g s.children = f c + g (inner stem s))
    (n : Node V) (level : Nat) (c : Census) : f (Census.addNode n level c) = f c + g n := by
  induction n using induct generalizing level c with
  | leaf suffix value hits =>
    rw [Census.addNode, fold_leaf]
    exact onLeaf suffix value hits level c
  | inner stem s ih =>
    have below (cs : List (UInt8 × Node V)) (hcs : ∀ e ∈ cs, e ∈ s.children) (c : Census) :
        f (cs.foldl (fun c e => Census.addNode e.2 (level + 1) c) c) = f c + total g cs := by
      induction cs generalizing c with
      | nil => rfl
      | cons e cs ih' =>
        obtain ⟨first, rest⟩ := List.forall_mem_cons.1 hcs
        rw [List.foldl_cons, ih' rest, ih e first, total_cons, Nat.add_assoc]
    rw [Census.addNode, fold_inner, List.foldl_map, ← onInner]
    exact below s.children (fun _ he => he) _

theorem nodes_addNode (n : Node V) (level : Nat) (c : Census) :
    ((Census.addNode n level c).tally l).nodes = (c.tally l).nodes + n.population l := by
  refine addNode_adds (f := fun c => (c.tally l).nodes) (fun suffix value hits level c => ?_)
    (fun stem s level c => ?_) n level c
  · rw [population_leaf]
    rfl
  · rw [population_inner, ← Nat.add_assoc]
    refine congrArg (· + _) ?_
    simp only [Census.addInner, Layout.one]
    split <;> rfl

theorem Growth.ofStoring (h : Growth s t events) : OfStoring events := by
  cases h with
  | room => exact .nothing
  | full full larger => exact full ▸ .promoted larger

theorem Growth.population_eq (h : Growth s t events)
    (inserted : Inserted b c s.children t.children) (hs : s.Sound) (ht : t.Sound)
    (single : c.population l = 0) (stem : Bytes) :
    ((inner stem t).population l : Int) = (inner stem s).population l + gains l events := by
  have same := inserted.total_eq (Storage.ascending_children hs) (Storage.ascending_children ht)
    (population l)
  rw [single, Nat.zero_add] at same
  rw [population_inner, population_inner, same]
  cases h with
  | room free layout => rw [layout]; simp
  | full full larger =>
    simp only [gains_cons, gains_nil, gain]
    push_cast
    omega

theorem population_of_replaced {d : Node V} {change : Int}
    (replaced : Replaced b d s.children t.children) (held : (b, c) ∈ s.children)
    (hs : s.Sound) (ht : t.Sound) (layout : t.layout = s.layout)
    (below : (d.population l : Int) = c.population l + change) (stem : Bytes) :
    ((inner stem t).population l : Int) = (inner stem s).population l + change := by
  obtain ⟨others, old, new⟩ := replaced.total_eq held (Storage.ascending_children hs)
    (Storage.ascending_children ht) (population l)
  rw [population_inner, population_inner, old, new, layout]
  push_cast
  omega

section Insertion

variable {repetition : Repetition} {value : V} {o : Outcome (Node V) (Except KeyError UInt64)}

theorem Insertion.ofStoring (h : Insertion repetition value n key o) : OfStoring o.events := by
  induction h with
  | duplicate => exact .nothing
  | counted => exact .nothing
  | conflictLeaf => exact .nothing
  | conflictInner => exact .nothing
  | fork => exact .split ..
  | edge sound inserted growth => exact growth.ofStoring
  | descend held insertion put sound same replaced ih => exact ih

theorem Insertion.population_eq (h : Insertion repetition value n key o) (hn : n.Sound) :
    (o.after.population l : Int) = n.population l + gains l o.events := by
  induction h with
  | duplicate => exact (Int.add_zero _).symm
  | counted =>
    simp only [population_leaf]
    rfl
  | conflictLeaf => exact (Int.add_zero _).symm
  | conflictInner => exact (Int.add_zero _).symm
  | fork stem sound layout inserted =>
    have both := inserted.total_eq (List.pairwise_singleton ..) (Storage.ascending_children sound)
      (population l)
    rw [population_inner, both, layout, newLeaf, population_leaf, total_cons,
      population_withStem]
    simp [gain, Int.add_comm]
  | edge sound inserted growth =>
    exact growth.population_eq inserted (sound_inner.1 hn).1 sound (population_leaf ..) _
  | descend held insertion put sound same replaced ih =>
    obtain ⟨here, below⟩ := sound_inner.1 hn
    exact population_of_replaced replaced held here sound same (ih (below _ held)) _

end Insertion

section Erasure

variable (h : Erasure stem s b c n events) (hs : s.Sound) (enough : s.layout.minimum ≤ s.count)

include h hs enough

theorem Erasure.ofRemoval : OfRemoval events := by
  cases h with
  | kept => exact .nothing
  | @shrunk t sound erased larger several few =>
    have one := Storage.count_of_erased hs sound erased
    have next := Layout.minimum_of_larger? larger
    have fits : t.count = t.layout.width := by omega
    exact fits ▸ .shrunk larger
  | merged => exact .recompressed _
  | emptied => exact .nothing

theorem Erasure.population_eq (single : c.population l = 0) :
    (n.population l : Int) = (inner stem s).population l + gains l events := by
  have sorted := Storage.ascending_children hs
  have two := s.layout.two_le_minimum
  cases h with
  | kept sound erased layout =>
    have same := erased.total_eq sorted (Storage.ascending_children sound) (population l)
    rw [single, Nat.zero_add] at same
    rw [population_inner, population_inner, same, layout]
    simp
  | shrunk sound erased larger =>
    have same := erased.total_eq sorted (Storage.ascending_children sound) (population l)
    rw [single, Nat.zero_add] at same
    rw [population_inner, population_inner, same]
    simp only [gains_cons, gains_nil, gain]
    push_cast
    omega
  | @merged a d erased =>
    have single' : Ascending [(a, d)] := List.pairwise_singleton ..
    have same := erased.total_eq sorted single' (population l)
    have count := erased.length sorted single'
    rw [Storage.length_children hs, List.length_singleton] at count
    -- two children were enough, and that is the minimum of `keyed4` alone
    have smallest : s.layout = .keyed4 := by
      cases layout : s.layout with
      | keyed4 => rfl
      | _ => rw [layout, count] at enough; exact absurd enough (by decide)
    rw [population_inner, population_withStem, same, single, smallest]
    simp only [gains_cons, gains_nil, gain, total_cons, total_nil]
    push_cast
    omega
  | emptied sound erased =>
    have count := erased.length sorted List.Pairwise.nil
    rw [Storage.length_children hs, List.length_nil] at count
    omega

end Erasure

section Removal

variable {o : Outcome (Node V) (Except KeyError V)} (h : Removal n key o) (hn : n.Sound)
  (filled : n.Filled fun l n => l.minimum ≤ n)

include h hn filled

theorem Removal.ofRemoval : OfRemoval o.events := by
  induction h with
  | missing => exact .nothing
  | taken erasure => exact erasure.ofRemoval (sound_inner.1 hn).1 (filled_inner.1 filled).1
  | descend held removal put sound same replaced ih =>
    exact ih ((sound_inner.1 hn).2 _ held) ((filled_inner.1 filled).2 _ held)

theorem Removal.population_eq :
    (o.after.population l : Int) = n.population l + gains l o.events := by
  induction h with
  | missing => exact (Int.add_zero _).symm
  | taken erasure =>
    exact erasure.population_eq (sound_inner.1 hn).1 (filled_inner.1 filled).1
      (population_leaf ..)
  | descend held removal put sound same replaced ih =>
    obtain ⟨here, below⟩ := sound_inner.1 hn
    exact population_of_replaced replaced held here sound same
      (ih (below _ held) ((filled_inner.1 filled).2 _ held)) _

end Removal

section Assignment

variable {value : V} {o : Outcome (Node V) (Except KeyError V)}

theorem Assignment.events_eq (h : Assignment value n key o) : o.events = [] := by
  induction h with
  | found => rfl
  | other => rfl
  | missing => rfl
  | descend held assignment put sound same replaced ih => exact ih

theorem Assignment.population_eq (h : Assignment value n key o) (hn : n.Sound) :
    (o.after.population l : Int) = n.population l + gains l o.events := by
  induction h with
  | found =>
    simp only [population_leaf]
    rfl
  | other => exact (Int.add_zero _).symm
  | missing => exact (Int.add_zero _).symm
  | descend held assignment put sound same replaced ih =>
    obtain ⟨here, below⟩ := sound_inner.1 hn
    exact population_of_replaced replaced held here sound same (ih (below _ held)) _

end Assignment

end Node

end AdaptiveRadix
