import GraphedCore.Incremental
import GraphedCore.Serialize
import GraphedCore.Interning
import GraphedCore.FixedPoint
import GraphedCore.Meaning
import GraphedCore.Rebuild
import GraphedCore.Outputs
import GraphedCore.Idempotence
import GraphedCore.Payloads
import GraphedCore.Agreement
import GraphedCore.History
import GraphedCore.Decoding
import GraphedCore.RoundTrip
import GraphedCore.Strict
import GraphedCore.Executable
import GraphedCore.Partition
import GraphedCore.Plan
import GraphedCore.TaskIds
import GraphedCore.Lifecycle
import GraphedCore.Operands
import GraphedCore.EqualBytes
import GraphedCore.Concurrent
import GraphedCore.Stepping
import GraphedCore.Saturation
import GraphedCore.Extraction
import GraphedCore.Elimination
import GraphedCore.Report
import GraphedCore.Refusals
import GraphedCore.Deployment
import GraphedCore.Resources
import GraphedCore.Truncation
import GraphedCore.OpTokens
import GraphedCore.Coarsest
import GraphedCore.Roots
import GraphedCore.Resolve
import GraphedCore.Sharing
import GraphedCore.Reloading
import GraphedCore.Bindings
import GraphedCore.Identity
import GraphedCore.Observation
import GraphedCore.Restoring
import GraphedCore.Compiling
import GraphedCore.Provenance
import GraphedCore.Interpreting
import GraphedCore.Shipping
import GraphedCore.Running
import GraphedCore.Calling
import GraphedCore.Copying
import GraphedCore.Rereduction
import GraphedCore.Normalizing
import GraphedCore.Analysis
import GraphedCore.Callables
import GraphedCore.Finalizing
import GraphedCore.Passes
import GraphedCore.Hashing
import GraphedCore.HashTables
import GraphedCore.Reserving
