import RegionTrie.Heap.Tracker
import RegionTrie.Session.Basic
import RegionTrie.Text.Record
import RegionTrie.Proofs.Trie.Links
import RegionTrie.Proofs.Trie.Store
import RegionTrie.Proofs.Trie.Run
import RegionTrie.Proofs.Trie.Structure
import RegionTrie.Trie.Arena
import RegionTrie.Proofs.Trie.Walks
import RegionTrie.Proofs.Trie.Nodes
import RegionTrie.Proofs.Trie.Simulation
import RegionTrie.Proofs.Trie.FiniteMap
import RegionTrie.Proofs.Heap.Ledger
import RegionTrie.Proofs.Heap.Log
import RegionTrie.Proofs.Region.Steps
import RegionTrie.Proofs.Session.Turns
import RegionTrie.Proofs.Region.Ledger
import RegionTrie.Proofs.Session.Ledger
import RegionTrie.Proofs.Pool.Placement
import RegionTrie.Proofs.Region.Placement
import RegionTrie.Proofs.Session.Placement
import RegionTrie.Proofs.Region.Failures
import RegionTrie.Proofs.Session.Failures
import RegionTrie.Proofs.Trie.Canonical
import RegionTrie.Proofs.Region.Lots
import RegionTrie.Proofs.Trie.Slabs
import RegionTrie.Proofs.Session.Contents
import RegionTrie.Proofs.Region.Cleanups
import RegionTrie.Proofs.Session.Handlers
import RegionTrie.Proofs.Session.Books
import RegionTrie.Proofs.Session.Safekeeping
import RegionTrie.Proofs.Pool.Search
import RegionTrie.Proofs.Region.Search
import RegionTrie.Proofs.Session.Search
import RegionTrie.Proofs.Heap.Fresh
import RegionTrie.Proofs.Pool.FirstFit
import RegionTrie.Proofs.Pool.Plan
import RegionTrie.Proofs.Pool.Slots
import RegionTrie.Proofs.Region.Errands
import RegionTrie.Proofs.Region.Plan
import RegionTrie.Proofs.Session.Names
import RegionTrie.Proofs.Session.Capacity
import RegionTrie.Proofs.Session.Replay
import RegionTrie.Proofs.Key.Bits
import RegionTrie.Proofs.Trie.Requests
import RegionTrie.Proofs.Trie.Width
import RegionTrie.Proofs.Trie.Supply
import RegionTrie.Proofs.Trie.HighWater
import RegionTrie.Proofs.Trie.Cascade
import RegionTrie.Proofs.Trie.Deletion
import RegionTrie.Proofs.Trie.Shortage
import RegionTrie.Proofs.Trie.Levels
import RegionTrie.Proofs.Region.Acquisition
import RegionTrie.Proofs.Trie.Creation
import RegionTrie.Proofs.Region.Tracked
import RegionTrie.Proofs.Trie.Tracked
import RegionTrie.Proofs.Session.Loans
import RegionTrie.Proofs.Session.Frees
import RegionTrie.Proofs.Region.Reuse
import RegionTrie.Proofs.Session.Reuse
import RegionTrie.Proofs.Trie.Addresses
import RegionTrie.Proofs.Trie.Grove
import RegionTrie.Proofs.Session.Grove
import RegionTrie.Proofs.Trie.Masks
import RegionTrie.Proofs.Key.Order
import RegionTrie.Proofs.Trie.Alignment
import RegionTrie.Proofs.Pool.Words
import RegionTrie.Proofs.Region.Words
import RegionTrie.Proofs.Region.Limits
import RegionTrie.Proofs.Session.Limits
import RegionTrie.Proofs.Region.Log
import RegionTrie.Proofs.Trie.Log
import RegionTrie.Proofs.Session.Log
