import SchemaBundle.Main
import SchemaBundle.Proofs.Resolve.Follow
import SchemaBundle.Proofs.Schema.Places
import SchemaBundle.Proofs.Resolve.Law
import SchemaBundle.Proofs.Url.Text
import SchemaBundle.Proofs.Url.Reader
import SchemaBundle.Proofs.Reference.Located
import SchemaBundle.Proofs.Resolve.Knowledge
import SchemaBundle.Proofs.Resolve.Place
import SchemaBundle.Proofs.Resolve.Growth
import SchemaBundle.Proofs.Resolve.Walked
import SchemaBundle.Proofs.Resolve.Faithful
import SchemaBundle.Proofs.Schema.Normal
import SchemaBundle.Proofs.Resolve.Settled
import SchemaBundle.Proofs.Resolve.Session
import SchemaBundle.Proofs.Resolve.Capture
import SchemaBundle.Proofs.Resolve.Requests
import SchemaBundle.Proofs.Schema.SelfContained
import SchemaBundle.Proofs.Resolve.Positions
import SchemaBundle.Proofs.Resolve.Reuse
import SchemaBundle.Proofs.Resolve.Complete
import SchemaBundle.Proofs.Resolve.Idempotent
import SchemaBundle.Proofs.Resolve.Idle
import SchemaBundle.Proofs.Resolve.ByParts
import SchemaBundle.Proofs.Resolve.Runs
import SchemaBundle.Proofs.Resolve.History
import SchemaBundle.Proofs.Resolve.Copies
import SchemaBundle.Proofs.Json.Pointers
import SchemaBundle.Proofs.Resolve.Termination
import SchemaBundle.Proofs.Resolve.Dangling
import SchemaBundle.Proofs.Resolve.Covered
import SchemaBundle.Proofs.Resolve.Depth
import SchemaBundle.Proofs.Document.Emission
import SchemaBundle.Proofs.Resolve.Limit
import SchemaBundle.Proofs.Schema.Form
import SchemaBundle.Proofs.Schema.RoundTrip
import SchemaBundle.Proofs.Json.Loaded
import SchemaBundle.Proofs.Json.Layout
import SchemaBundle.Proofs.Json.Loadable
import SchemaBundle.Proofs.Decimal.Nearest
import SchemaBundle.Proofs.Decimal.Shortest
import SchemaBundle.Proofs.Yaml.Numbers
import SchemaBundle.Proofs.Yaml.Strings
import SchemaBundle.Proofs.Yaml.Steps
import SchemaBundle.Proofs.Yaml.Scan
import SchemaBundle.Proofs.Yaml.Structure
import SchemaBundle.Proofs.Yaml.Decoding
import SchemaBundle.Proofs.Yaml.Loading
import SchemaBundle.Proofs.Resolve.Naming
import SchemaBundle.Proofs.Schema.Comparison
import SchemaBundle.Proofs.Resolve.Order
import SchemaBundle.Proofs.Document.RoundTrip
import SchemaBundle.Proofs.Schema.Rereading
import SchemaBundle.Proofs.Schema.Outline
import SchemaBundle.Proofs.Resolve.ReadBack
import SchemaBundle.Proofs.CommandLine.Created
import SchemaBundle.Proofs.CommandLine.Outcome
import SchemaBundle.Proofs.CommandLine.Reloaded
import SchemaBundle.Proofs.Resolve.FailedMerge
import SchemaBundle.Proofs.Resolve.Levels
import SchemaBundle.Proofs.Resolve.Frontier
import SchemaBundle.Proofs.Resolve.Agreement
import SchemaBundle.Proofs.Schema.Collected
import SchemaBundle.Proofs.Schema.Descent
import SchemaBundle.Proofs.Resolve.Accounted
import SchemaBundle.Proofs.Cache.Recall
import SchemaBundle.Proofs.Reference.Paths
import SchemaBundle.Proofs.Reference.Absolute
import SchemaBundle.Proofs.Yaml.Mappings
import SchemaBundle.Proofs.Reference.Names
import SchemaBundle.Proofs.Resolve.Search
