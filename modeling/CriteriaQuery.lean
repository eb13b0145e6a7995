import CriteriaQuery.Cache.Metrics
import CriteriaQuery.CommandLine.Memory
import CriteriaQuery.Json.Readable
import CriteriaQuery.Main
import CriteriaQuery.Number.Fixed
import CriteriaQuery.Proofs.Criteria.Meaning
import CriteriaQuery.Proofs.Registry.Lookup
import CriteriaQuery.Proofs.Criteria.Grammar
import CriteriaQuery.Proofs.Document.Grammar
import CriteriaQuery.Proofs.Session.Scoped
import CriteriaQuery.Proofs.Catalog.Valid
import CriteriaQuery.Proofs.Registry.Qualified
import CriteriaQuery.Proofs.Catalog.Graph
import CriteriaQuery.Proofs.Registry.Columns
import CriteriaQuery.Proofs.Session.Names
import CriteriaQuery.Proofs.Criteria.RoundTrip
import CriteriaQuery.Proofs.Document.RoundTrip
import CriteriaQuery.Proofs.Cache.Overlap
import CriteriaQuery.Proofs.Cache.Held
import CriteriaQuery.Proofs.Cache.Alone
import CriteriaQuery.Proofs.Cache.Contents
import CriteriaQuery.Proofs.Cache.Fresh
import CriteriaQuery.Proofs.Cache.SingleFlight
import CriteriaQuery.Proofs.Session.Cached
import CriteriaQuery.Proofs.Cache.Recency
import CriteriaQuery.Proofs.Catalog.Connected
import CriteriaQuery.Proofs.Compile.Refusal
import CriteriaQuery.Proofs.Registry.Acceptance
import CriteriaQuery.Proofs.Registry.Clash
import CriteriaQuery.Proofs.Registry.Index
import CriteriaQuery.Proofs.Registry.Once
import CriteriaQuery.Proofs.Registry.Order
import CriteriaQuery.Proofs.Session.Built
import CriteriaQuery.Proofs.Session.Order
import CriteriaQuery.Proofs.Session.Recency
import CriteriaQuery.Proofs.Criteria.Membership
import CriteriaQuery.Proofs.Sql.Identifier
import CriteriaQuery.Proofs.Sql.Debug
import CriteriaQuery.Proofs.Cache.Kept
import CriteriaQuery.Proofs.Catalog.Requests
import CriteriaQuery.Proofs.Session.Consulted
import CriteriaQuery.Proofs.Compile.Paging
import CriteriaQuery.Proofs.Compile.Sorting
import CriteriaQuery.Proofs.Cache.Overflow
import CriteriaQuery.Proofs.Cache.Lookups
import CriteriaQuery.Proofs.Session.Ages
import CriteriaQuery.Proofs.Catalog.Loads
import CriteriaQuery.Proofs.Catalog.Memory
import CriteriaQuery.Proofs.Criteria.Place
import CriteriaQuery.Proofs.Document.Literals
import CriteriaQuery.Proofs.Catalog.Circles
import CriteriaQuery.Proofs.Registry.Steady
import CriteriaQuery.Proofs.Scalar.Order
