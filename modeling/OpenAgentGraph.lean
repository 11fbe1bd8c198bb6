import OpenAgentGraph.Proof.Accept
import OpenAgentGraph.Proof.Admission
import OpenAgentGraph.Proof.Assert
import OpenAgentGraph.Proof.Atomic
import OpenAgentGraph.Proof.Attribution
import OpenAgentGraph.Proof.Authority
import OpenAgentGraph.Proof.Cache
import OpenAgentGraph.Proof.Cliff
import OpenAgentGraph.Proof.Converge
import OpenAgentGraph.Proof.Correspond
import OpenAgentGraph.Proof.Corroboration
import OpenAgentGraph.Proof.Crawl
import OpenAgentGraph.Proof.Embeddings
import OpenAgentGraph.Proof.Federation
import OpenAgentGraph.Proof.Fetch
import OpenAgentGraph.Proof.Forks
import OpenAgentGraph.Proof.Framing
import OpenAgentGraph.Proof.Gravity
import OpenAgentGraph.Proof.Identifier
import OpenAgentGraph.Proof.Identity
import OpenAgentGraph.Proof.Keys
import OpenAgentGraph.Proof.Legacy
import OpenAgentGraph.Proof.Link
import OpenAgentGraph.Proof.Median
import OpenAgentGraph.Proof.NtpWire
import OpenAgentGraph.Proof.Overflow
import OpenAgentGraph.Proof.Ownership
import OpenAgentGraph.Proof.Paging
import OpenAgentGraph.Proof.PeerCap
import OpenAgentGraph.Proof.Possession
import OpenAgentGraph.Proof.Provenance
import OpenAgentGraph.Proof.Pull
import OpenAgentGraph.Proof.Quorum
import OpenAgentGraph.Proof.Range
import OpenAgentGraph.Proof.RateLimit
import OpenAgentGraph.Proof.Receipts
import OpenAgentGraph.Proof.Redaction
import OpenAgentGraph.Proof.Relay
import OpenAgentGraph.Proof.Replication
import OpenAgentGraph.Proof.Resolve
import OpenAgentGraph.Proof.Revoke
import OpenAgentGraph.Proof.Robots
import OpenAgentGraph.Proof.Search
import OpenAgentGraph.Proof.Sources
import OpenAgentGraph.Proof.Ssrf
import OpenAgentGraph.Proof.Statements
import OpenAgentGraph.Proof.Subgraph
import OpenAgentGraph.Proof.Transfer
import OpenAgentGraph.Proof.Transports
import OpenAgentGraph.Proof.Versioning
import OpenAgentGraph.Proof.Writes
