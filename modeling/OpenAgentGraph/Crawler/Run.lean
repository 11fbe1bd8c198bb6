/-
  Runs of a peer that crawls.

  Beside its database the state keeps the events that crawls have committed, in
  their order, for what is said of them.
-/
import OpenAgentGraph.Crawler.Crawl
import OpenAgentGraph.Database

namespace OpenAgentGraph

open Lib

variable {H : Type} {U Ω ε : Type}

structure CrawlingPeer (H : Type) where
  db : Database H
  committed : List (EventRow H) := []

/-- The site, the extractors and the configuration of a crawl are any; its
    identity is that of the peer. -/
inductive CrawlerOp (P : Prims H) (U Ω ε : Type)
  | db (op : DbOp P)
  | crawl (svc : CrawlerService U Ω ε H) (url : U) (ω : Ω)

variable (P : Prims H) [DecidableEq H]

/-- The store that a crawl leaves, on either exit. -/
def CrawlerService.crawlStore (svc : CrawlerService U Ω ε H) (url : U) (ω : Ω) (s : Store H) : Store H :=
  ((svc.crawl P url) ((ω, s), [])).2.1.2

namespace Prims

def crawlerStep (me : PeerIdentity) (st : CrawlingPeer H) : CrawlerOp P U Ω ε → CrawlingPeer H
  | .db op => { st with db := P.dbStep st.db op }
  | .crawl svc url ω =>
    let s := CrawlerService.crawlStore P { svc with identity := me } url ω st.db.store
    ⟨{ st.db with store := s }, st.committed ++ s.events.drop st.db.store.events.length⟩

def crawlerRun (me : PeerIdentity) (ops : List (CrawlerOp P U Ω ε)) : CrawlingPeer H :=
  ops.foldl (P.crawlerStep me) ⟨.empty, []⟩

end Prims

end OpenAgentGraph
