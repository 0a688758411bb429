import Memqueue.Lib.CString
import Memqueue.Lib.Table
import Memqueue.Lib.Fallible

/-! The request side of http_impl.h: one client connection and what recv gives it.
The connection is reused for every request, so no field is fresh unless the code resets it. -/
namespace Memqueue

abbrev httpMaxHdrLen : Nat := 8192

abbrev tcpBufSize : Nat := 32 * 1024

abbrev httpMaxHostLen : Nat := 255

abbrev httpDefaultServerPort : Nat := 80

/-- A value as a uint64_t. -/
def wrapU64 (x : Int) : Nat := (x % 2^64).toNat

/-- http_method_t -/
inductive HttpMethod where
  | get
  | post
  | put
  | head
  | delete
  deriving DecidableEq, Repr

/-- The members of http_req_err_t that are returned. -/
inductive HttpReqErr where
  | maxHdrExc
  | cliClosed
  | invReqLine
  | invMethod
  | invHost
  | invProto
  | timeoutExc
  | invHdr
  deriving DecidableEq, Repr

/-- What one call of http_recv gives: bytes, or 0, -1 and -2. -/
inductive Recv where
  | data (bs : List UInt8)
  | closed
  | error
  | timeout
  deriving DecidableEq, Repr

/-- struct http_cli with its http_req_t and http_hdr_t. The values of `hdrs` are pointers into `hdr`;
`body` is the memory behind the pointer, as far as it has been written. -/
structure HttpCli where
  hdr : Buffer
  hdrStart : Nat
  hdrLen : Nat
  cntLen : Nat
  chunked : Bool
  nolen : Bool
  http11 : Bool
  hdrs : Table (List UInt8) Nat
  host : Option (List UInt8)
  method : Option HttpMethod
  uri : Option (List UInt8)
  port : Int
  body : Option (List UInt8)
  bodyLen : Nat
  path : Option (List UInt8)
  queryStringArgs : Table (List UInt8) (List UInt8)

namespace HttpCli

/-- The calloc of http_cli_new. -/
def new : HttpCli where
  hdr _ := 0
  hdrStart := 0
  hdrLen := 0
  cntLen := 0
  chunked := false
  nolen := false
  http11 := false
  hdrs := []
  host := none
  method := none
  uri := none
  port := 0
  body := none
  bodyLen := 0
  path := none
  queryStringArgs := []

/-- http_cli_init. Of the request only the pointers are cleared. -/
def init (cli : HttpCli) : HttpCli :=
  { cli with host := none, uri := none, body := none, path := none, hdrs := [], queryStringArgs := [] }

/-- http_cli_reset, after a request has been answered. -/
def reset (cli : HttpCli) : HttpCli :=
  { cli with host := none, uri := none, body := none, path := none, hdrs := [], queryStringArgs := [] }

/-- The header block. -/
def block (cli : HttpCli) : List UInt8 := cli.hdr.slice 0 cli.hdrLen

/-- The string a header's value pointer leads to; every string in the buffer ends inside it. -/
def value (cli : HttpCli) (p : Nat) : List UInt8 := cString (cli.hdr.slice p (httpMaxHdrLen - p))

/-- h_get on the request headers. -/
def getHdr (cli : HttpCli) (name : List UInt8) : Option (List UInt8) := (cli.hdrs.get name).map cli.value

/-- The bytes http_get_body and http_get_body_len give to a handler. -/
def handed (cli : HttpCli) : Option (List UInt8) := cli.body.map (·.take cli.bodyLen)

end HttpCli

end Memqueue
