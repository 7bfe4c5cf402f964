import Dime.Foundation.Refinement
import Dime.Server.Link
import Dime.Server.TableDuplicates
import Dime.Server.Waiting
import Dime.Server.Isolation
import Dime.Server.Members
import Dime.Server.WebSocket
import Dime.Server.Readiness
import Dime.Clients.Python.DimebRoundTrip
import Dime.Clients.Python.Decodable
import Dime.Foundation.Truncated
import Dime.Clients.Python.Truncated
import Dime.Clients.JavaScript.Truncated
import Dime.Clients.Truncation
import Dime.Clients.Poisoning
import Dime.Clients.Heeding
import Dime.Clients.Encoders
import Dime.Clients.JavaScript.EventLoop
import Dime.Clients.JavaScript.Json
import Dime.Clients.JavaScript.JsonRoundTrip
import Dime.Clients.JavaScript.Overlapping
import Dime.Clients.JavaScript.OwnReplies
import Dime.Clients.JavaScript.Matching
import Dime.Clients.JavaScript.Numbers
import Dime.Clients.JavaScript.Ranges
import Dime.Clients.JavaScript.Reassembly
import Dime.Clients.Matrices
import Dime.Clients.JavaScript.DimebRoundTrip
import Dime.Clients.Python.Json
import Dime.Clients.Python.JsonRoundTrip
import Dime.Clients.EventLoops
import Dime.Clients.Connections
import Dime.Clients.Python.Senders
import Dime.Clients.Requests
import Dime.Clients.SyncResults
import Dime.Clients.Collecting
import Dime.Clients.Matlab.Dimeb
import Dime.Clients.Matlab.DimebArrays
import Dime.Clients.Matlab.ArrayReturns
import Dime.Clients.Matlab.Survival
import Dime.Clients.Matlab.SelfDelimiting
import Dime.Clients.Matlab.Interop
import Dime.Clients.Python.Relay
import Dime.Clients.Python.Switching
import Dime.Server.DequeRuns
import Dime.Server.PushFailures
import Dime.Server.TableCounters
import Dime.Server.TableProbing
import Dime.Server.TableTermination
import Dime.Server.UpgradeRequests
import Dime.Server.SendFailures
import Dime.Server.Atomicity
import Dime.Server.ErrorText
import Dime.Server.FrameLoop
import Dime.Server.Shutdown
