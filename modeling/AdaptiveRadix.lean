import AdaptiveRadix.Bitset.Step
import AdaptiveRadix.Cursor.Step
import AdaptiveRadix.Dictionary
import AdaptiveRadix.Node.Descent
import AdaptiveRadix.Node.Sound
import AdaptiveRadix.Storage.Action
import AdaptiveRadix.Storage.Reading
import AdaptiveRadix.Storage.Step
import AdaptiveRadix.Tree.Action
import AdaptiveRadix.Tree.Descent
import AdaptiveRadix.Tree.Inspection
import AdaptiveRadix.Tree.Reading
import AdaptiveRadix.Tree.Step
import AdaptiveRadix.Proofs.Bitset
import AdaptiveRadix.Proofs.Bitset.Members
import AdaptiveRadix.Proofs.Checked
import AdaptiveRadix.Proofs.Cursor
import AdaptiveRadix.Proofs.Cursor.Run
import AdaptiveRadix.Proofs.Dictionary
import AdaptiveRadix.Proofs.Dictionary.Graft
import AdaptiveRadix.Proofs.Dictionary.Rebuild
import AdaptiveRadix.Proofs.Edges
import AdaptiveRadix.Proofs.Event
import AdaptiveRadix.Proofs.Listing
import AdaptiveRadix.Proofs.Map
import AdaptiveRadix.Proofs.Map.Bounds
import AdaptiveRadix.Proofs.Map.Canonical
import AdaptiveRadix.Proofs.Map.Ledger
import AdaptiveRadix.Proofs.Map.Regular
import AdaptiveRadix.Proofs.Map.Statistics
import AdaptiveRadix.Proofs.Node.Children
import AdaptiveRadix.Proofs.Node.Compressed
import AdaptiveRadix.Proofs.Node.Descent
import AdaptiveRadix.Proofs.Node.Edits
import AdaptiveRadix.Proofs.Node.Entries
import AdaptiveRadix.Proofs.Node.Filled
import AdaptiveRadix.Proofs.Node.Graph
import AdaptiveRadix.Proofs.Node.Insertion
import AdaptiveRadix.Proofs.Node.Levels
import AdaptiveRadix.Proofs.Node.Population
import AdaptiveRadix.Proofs.Node.Removal
import AdaptiveRadix.Proofs.Node.Search
import AdaptiveRadix.Proofs.Run
import AdaptiveRadix.Proofs.SortedBytes
import AdaptiveRadix.Proofs.Stem
import AdaptiveRadix.Proofs.Storage
import AdaptiveRadix.Proofs.Storage.Added
import AdaptiveRadix.Proofs.Storage.Built
import AdaptiveRadix.Proofs.Storage.Conversion
import AdaptiveRadix.Proofs.Storage.Direct
import AdaptiveRadix.Proofs.Storage.Exchange
import AdaptiveRadix.Proofs.Storage.Indexed
import AdaptiveRadix.Proofs.Storage.Interchange
import AdaptiveRadix.Proofs.Storage.Keyed
import AdaptiveRadix.Proofs.Storage.Reached
import AdaptiveRadix.Proofs.Storage.Traced
import AdaptiveRadix.Proofs.Tree
import AdaptiveRadix.Proofs.Tree.Descent
import AdaptiveRadix.Proofs.Tree.Equivalent
import AdaptiveRadix.Proofs.Tree.Faultless
import AdaptiveRadix.Proofs.Tree.Inspection
import AdaptiveRadix.Proofs.Tree.Listing
import AdaptiveRadix.Proofs.Tree.Readers
import AdaptiveRadix.Proofs.Tree.Reading
import AdaptiveRadix.Proofs.Tree.Rebuild
import AdaptiveRadix.Proofs.Tree.Refusal
import AdaptiveRadix.Proofs.Tree.Statistics
import AdaptiveRadix.Proofs.Tree.Undo
import AdaptiveRadix.Proofs.Violation
import AdaptiveRadix.Proofs.Walk
