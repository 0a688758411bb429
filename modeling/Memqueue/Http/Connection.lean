import Memqueue.Http.Receive
import Memqueue.Http.Parser

/-! One request on a connection: the header, the path and its arguments, and the body of a POST.
The loop of http_lt_cli_rd then hands it to the router. -/
namespace Memqueue

def httpRecvReqHdr (cli : HttpCli) (rs : List Recv) : Option (Option HttpReqErr × HttpCli × List Recv) :=
  match httpRecvHdr cli rs with
  | some (none,cli,rs) => some ((httpParseReqHdr cli).1,(httpParseReqHdr cli).2,rs)
  | r => r

/-- The arguments after the question mark: strtok_r on &, then the first = of each. -/
def queryArgs (query : List UInt8) : Table (List UInt8) (List UInt8) :=
  (query.splitOn 38).foldl (fun t tok =>
    match strstr [61] tok with
    | some i => t.insert (tok.take i) (tok.drop (i + 1))
    | none => t) []

def httpSetPath (cli : HttpCli) : HttpCli :=
  let uri := cli.uri.getD []
  match strstr [63] uri with
  | some i => { cli with path := some (uri.take i), queryStringArgs := queryArgs (uri.drop (i + 1)) }
  | none => { cli with path := some uri }

section Body
variable (away : List UInt8 → Int)

def httpRecvbody (cli : HttpCli) (rs : List Recv) : Option (Int × HttpCli × List Recv) :=
  if cli.chunked then httpRecvChunked away cli rs else httpRecvExact cli rs

/-- http_handle_cli_rd: an error code, or a request for the router. What http_recvbody returns is ignored. -/
def httpHandleCliRd (cli : HttpCli) (rs : List Recv) : Option (Option HttpReqErr × HttpCli × List Recv) :=
  match httpRecvReqHdr cli rs with
  | some (none,cli,rs) =>
    let cli := httpSetPath cli
    if cli.method = some .post then (httpRecvbody away cli rs).map fun r => (none,r.2) else some (none,cli,rs)
  | r => r

end Body

end Memqueue
