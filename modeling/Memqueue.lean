import Memqueue.Lib.Fallible
import Memqueue.Lib.Table
import Memqueue.Lib.ColorTree
import Memqueue.Hash.Chains
import Memqueue.Expiry.Membership
import Memqueue.Expiry.Schedule
import Memqueue.Queue.NoDelete
import Memqueue.Queue.Removal
import Memqueue.Queue.Delivery
import Memqueue.Queue.Consumption
import Memqueue.Queue.SizeLimit
import Memqueue.Queue.FullPost
import Memqueue.Queue.Results
import Memqueue.Queue.Cleaner
import Memqueue.Queue.Progress
import Memqueue.Queue.Args
import Memqueue.Queue.Uptime
import Memqueue.Queue.Wakeups
import Memqueue.Queue.Notices
import Memqueue.Queue.IndexCalls
import Memqueue.Queue.Activity
import Memqueue.Queue.Lifetime
import Memqueue.Http.Body
import Memqueue.Http.Router
import Memqueue.Http.Headers
import Memqueue.Http.Query
import Memqueue.Http.RequestLine
import Memqueue.Http.Bounds
import Memqueue.Http.Independence
import Memqueue.Http.Strtol
import Memqueue.Http.Response
import Memqueue.Rbtree.Runs
import Memqueue.Rbtree.Depth
import Memqueue.Json.Accepted
import Memqueue.Json.Respond
