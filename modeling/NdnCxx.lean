import NdnCxx.Lib.DescMap
import NdnCxx.Lib.Comparison
import NdnCxx.Component
import NdnCxx.ComponentOrder
import NdnCxx.NameOrder
import NdnCxx.Exclude
import NdnCxx.Stream
import NdnCxx.Wire.Header
import NdnCxx.Wire.Block
import NdnCxx.Wire.Grammar
import NdnCxx.Wire.Outcome
import NdnCxx.Wire.Tree
import NdnCxx.Wire.Append
import NdnCxx.Wire.Visitor
import NdnCxx.Wire.Fields
import NdnCxx.NameUri
import NdnCxx.Data
import NdnCxx.DataRoundTrip
import NdnCxx.SignedPortion
import NdnCxx.DataCache
import NdnCxx.Interest
import NdnCxx.Lib.PointerTree
import NdnCxx.Lib.Runs
import NdnCxx.Lib.Ledger
import NdnCxx.Lib.Recency
import NdnCxx.Lib.Backtrack
import NdnCxx.Trie.Node
import NdnCxx.Trie.WithPolicy
import NdnCxx.Trie.Steps
import NdnCxx.Trie.Synchrony
import NdnCxx.Trie.Clearing
import NdnCxx.Trie.Refinement
import NdnCxx.Trie.Replacement
import NdnCxx.Lib.Prefixes
import NdnCxx.Trie.PrefixMatch
import NdnCxx.Trie.DeepestMatch
import NdnCxx.Regex.Matcher
import NdnCxx.Regex.Search
import NdnCxx.Regex.Language
import NdnCxx.Regex.Captures
import NdnCxx.Lib.Throwing
import NdnCxx.Der.Header
import NdnCxx.Der.Node
import NdnCxx.Der.Build
import NdnCxx.Der.RoundTrip
import NdnCxx.Der.Raw
import NdnCxx.Der.Lengths
import NdnCxx.Der.Visitor
import NdnCxx.Der.Certificate
import NdnCxx.Security.Certificate
import NdnCxx.Security.Policy
import NdnCxx.Security.PolicyRelation
import NdnCxx.Security.Verification
import NdnCxx.Security.Chain
import NdnCxx.Security.Consult
import NdnCxx.Security.Soundness
import NdnCxx.Security.KeyBinding
import NdnCxx.Security.Settlement
import NdnCxx.Security.Bounded
import NdnCxx.Lib.Table
import NdnCxx.Lib.Stateful
import NdnCxx.Security.IdentityStorage
import NdnCxx.Security.DefaultEntries
import NdnCxx.Security.TTLCache
import NdnCxx.Security.CacheExpiry
import NdnCxx.Executor
import NdnCxx.Lib.Fifo
import NdnCxx.Dispatch
import NdnCxx.Scheduler.Machine
import NdnCxx.Scheduler.Invoked
import NdnCxx.Scheduler.Reschedule
import NdnCxx.Wire.Timestamp
import NdnCxx.Wire.Scalars
import NdnCxx.Lib.Brackets
import NdnCxx.Regex.Compile
import NdnCxx.Regex.Repetition
import NdnCxx.Regex.Totality
import NdnCxx.Regex.Printing
import NdnCxx.Regex.Concatenation
import NdnCxx.Regex.Anchors
import NdnCxx.Regex.FromName
import NdnCxx.Regex.Recursion
import NdnCxx.Regex.Expand
import NdnCxx.Trie.Resizing
import NdnCxx.Trie.Refusal
import NdnCxx.Trie.Iterator
import NdnCxx.Trie.ClearIf
import NdnCxx.ComponentUri
import NdnCxx.ComponentNumber
import NdnCxx.NameNumber
import NdnCxx.NameSlicing
import NdnCxx.Wire.Estimate
import NdnCxx.Lib.PrefixCode
import NdnCxx.Wire.StreamExclude
import NdnCxx.DataBounds
import NdnCxx.Wire.StreamData
import NdnCxx.Lib.Traversal
import NdnCxx.Trie.Traversal
import NdnCxx.Der.LengthForm
import NdnCxx.Der.Caching
import NdnCxx.Der.Oid
import NdnCxx.Security.IntroExtension
import NdnCxx.Security.CertificateName
import NdnCxx.Security.KeyNames
import NdnCxx.Security.SelfSign
import NdnCxx.Security.IdentityManager
import NdnCxx.Shutdown
import NdnCxx.SignedWire
import NdnCxx.Security.Completeness
import NdnCxx.Security.StorageRefinement
import NdnCxx.Security.TrustModel
import NdnCxx.Security.SignByIdentity
