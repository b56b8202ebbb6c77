import AdaptiveRadix.Census
import Mathlib.Tactic.Common

/-!
The events as a ledger of the inner nodes. An event says how many nodes of each layout there are
more or less, so the nodes of a tree are the sum of what was told since it was empty.
-/

namespace AdaptiveRadix

/-- One node of layout `m`, counted among those of layout `l`. -/
def Layout.one (l m : Layout) : Nat :=
  if l = m then 1 else 0

namespace Event

variable {events more : List Event} {e : Event} {l : Layout}

/-- Storing a key cuts a stem or grows a full node by one layout, if it changes an inner node. -/
inductive OfStoring : List Event → Prop
  | nothing : OfStoring []
  | split (kept : Nat) (stem : Bytes) : OfStoring [.split kept stem]
  | promoted {source target : Layout} (larger : source.larger? = some target) :
    OfStoring [.promoted source target source.width]

/-- Removing a key merges a node with its last child or shrinks one that fits the layout below, if
it does more than take a child away. -/
inductive OfRemoval : List Event → Prop
  | nothing : OfRemoval []
  | recompressed (merged : Bytes) : OfRemoval [.recompressed merged]
  | shrunk {source target : Layout} (larger : target.larger? = some source) :
    OfRemoval [.shrunk source target target.width]

inductive Adjacent : Event → Prop
  | split (kept : Nat) (stem : Bytes) : Adjacent (.split kept stem)
  | promoted {source target : Layout} (larger : source.larger? = some target) (children : Nat) :
    Adjacent (.promoted source target children)
  | shrunk {source target : Layout} (larger : target.larger? = some source) (children : Nat) :
    Adjacent (.shrunk source target children)
  | recompressed (merged : Bytes) : Adjacent (.recompressed merged)

theorem OfStoring.adjacent (h : OfStoring events) : ∀ e ∈ events, e.Adjacent := by
  cases h with
  | nothing => exact fun e he => absurd he List.not_mem_nil
  | split kept stem => exact List.forall_mem_singleton.2 (.split kept stem)
  | promoted larger => exact List.forall_mem_singleton.2 (.promoted larger _)

theorem OfRemoval.adjacent (h : OfRemoval events) : ∀ e ∈ events, e.Adjacent := by
  cases h with
  | nothing => exact fun e he => absurd he List.not_mem_nil
  | recompressed merged => exact List.forall_mem_singleton.2 (.recompressed merged)
  | shrunk larger => exact List.forall_mem_singleton.2 (.shrunk larger _)

/-- The nodes of a layout that come in with an event, less those that go. -/
def gain (l : Layout) : Event → Int
  | .split .. => l.one .keyed4
  | .promoted source target _ => l.one target - l.one source
  | .shrunk source target _ => l.one target - l.one source
  | .recompressed _ => - l.one .keyed4

def gains (l : Layout) (events : List Event) : Int :=
  events.foldr (fun e sum => e.gain l + sum) 0

@[simp] theorem gains_nil : gains l [] = 0 := rfl

@[simp] theorem gains_cons : gains l (e :: events) = e.gain l + gains l events := rfl

theorem gains_append : gains l (events ++ more) = gains l events + gains l more := by
  induction events with
  | nil => simp
  | cons e events ih => rw [List.cons_append, gains_cons, gains_cons, ih, Int.add_assoc]

@[simp] def isSplit : Event → Bool
  | .split .. => true
  | _ => false

@[simp] def isRecompressed : Event → Bool
  | .recompressed _ => true
  | _ => false

@[simp] def isPromoted (source target : Layout) : Event → Bool
  | .promoted a b _ => a = source ∧ b = target
  | _ => false

@[simp] def isShrunk (source target : Layout) : Event → Bool
  | .shrunk a b _ => a = source ∧ b = target
  | _ => false

def splits (events : List Event) : Nat :=
  events.countP isSplit

def recompressions (events : List Event) : Nat :=
  events.countP isRecompressed

def promotions (source target : Layout) (events : List Event) : Nat :=
  events.countP (isPromoted source target)

def shrinks (source target : Layout) (events : List Event) : Nat :=
  events.countP (isShrunk source target)

theorem gains_eq (adjacent : ∀ e ∈ events, e.Adjacent) :
    gains .keyed4 events = splits events - recompressions events -
        promotions .keyed4 .keyed16 events + shrinks .keyed16 .keyed4 events ∧
      gains .keyed16 events = promotions .keyed4 .keyed16 events -
        shrinks .keyed16 .keyed4 events - promotions .keyed16 .indexed48 events +
        shrinks .indexed48 .keyed16 events ∧
      gains .indexed48 events = promotions .keyed16 .indexed48 events -
        shrinks .indexed48 .keyed16 events - promotions .indexed48 .direct256 events +
        shrinks .direct256 .indexed48 events ∧
      gains .direct256 events = promotions .indexed48 .direct256 events -
        shrinks .direct256 .indexed48 events := by
  induction events with
  | nil => exact ⟨rfl, rfl, rfl, rfl⟩
  | cons e events ih =>
    obtain ⟨first, rest⟩ := List.forall_mem_cons.1 adjacent
    obtain ⟨four, sixteen, fortyEight, largest⟩ := ih rest
    simp only [gains_cons, four, sixteen, fortyEight, largest, splits, recompressions, promotions,
      shrinks, List.countP_cons]
    cases first with
    | split kept stem => simp [gain, Layout.one]; omega
    | recompressed merged => simp [gain, Layout.one]; omega
    | @promoted source target larger children =>
      cases source <;> cases larger <;> (simp [gain, Layout.one]; omega)
    | @shrunk source target larger children =>
      cases target <;> cases larger <;> (simp [gain, Layout.one]; omega)

end Event

open Event in
/-- The inner nodes that a census finds are what the events add up to. -/
structure Ledger (events : List Event) (c : Census) : Prop where
  keyed4 : ((c.tally .keyed4).nodes : Int) = splits events - recompressions events -
    promotions .keyed4 .keyed16 events + shrinks .keyed16 .keyed4 events
  keyed16 : ((c.tally .keyed16).nodes : Int) = promotions .keyed4 .keyed16 events -
    shrinks .keyed16 .keyed4 events - promotions .keyed16 .indexed48 events +
    shrinks .indexed48 .keyed16 events
  indexed48 : ((c.tally .indexed48).nodes : Int) = promotions .keyed16 .indexed48 events -
    shrinks .indexed48 .keyed16 events - promotions .indexed48 .direct256 events +
    shrinks .direct256 .indexed48 events
  direct256 : ((c.tally .direct256).nodes : Int) = promotions .indexed48 .direct256 events -
    shrinks .direct256 .indexed48 events
  innerNodes : (c.innerNodes : Int) = splits events - recompressions events

theorem ledger_of_gains {events : List Event} {c : Census}
    (adjacent : ∀ e ∈ events, e.Adjacent)
    (balance : ∀ l, ((c.tally l).nodes : Int) = Event.gains l events) : Ledger events c := by
  obtain ⟨four, sixteen, fortyEight, largest⟩ := Event.gains_eq adjacent
  rw [← balance] at four sixteen fortyEight largest
  refine ⟨four, sixteen, fortyEight, largest, ?_⟩
  -- every change of layout takes a node from one layout to another
  rw [Census.innerNodes, Census.total]
  omega

end AdaptiveRadix
