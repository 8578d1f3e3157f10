import OxidizedWall.Lib.KeyMap
import OxidizedWall.Lib.Prog
import OxidizedWall.Lib.Pool
import OxidizedWall.Lib.Future
import OxidizedWall.Lib.Bucket
import OxidizedWall.Lib.Windows
import OxidizedWall.Lib.Regex
import OxidizedWall.Lib.Matcher
import OxidizedWall.Lib.Search
import OxidizedWall.Lib.Utf8
import OxidizedWall.Lib.Prefix
import OxidizedWall.Lib.Checks
import OxidizedWall.Lib.Cyclic
import OxidizedWall.Lib.Cut
import OxidizedWall.Lib.Excess
import OxidizedWall.Lib.Json
import OxidizedWall.Runtime
import OxidizedWall.Unicode
import OxidizedWall.Http
import OxidizedWall.Config
import OxidizedWall.Bandwidth
import OxidizedWall.Traffic
import OxidizedWall.Delivery
import OxidizedWall.BandwidthBound
import OxidizedWall.Waiting
import OxidizedWall.RateLimit
import OxidizedWall.Rejections
import OxidizedWall.Ban
import OxidizedWall.BanReference
import OxidizedWall.BanRace
import OxidizedWall.Waf.Core
import OxidizedWall.Waf.Dlp
import OxidizedWall.Waf.File
import OxidizedWall.Waf.Path
import OxidizedWall.Waf.Structure
import OxidizedWall.Nesting
import OxidizedWall.Pollution
import OxidizedWall.Collect
import OxidizedWall.Waf
import OxidizedWall.Masking
import OxidizedWall.Evasion
import OxidizedWall.Decoding
import OxidizedWall.Traversal
import OxidizedWall.Signatures
import OxidizedWall.Health
import OxidizedWall.Protocol
import OxidizedWall.Proxy
import OxidizedWall.Balance
import OxidizedWall.Verify
import OxidizedWall.Forward
import OxidizedWall.Response
import OxidizedWall.Server
import OxidizedWall.Load
import OxidizedWall.Reload
import OxidizedWall.Reloaded
import OxidizedWall.Payload
import OxidizedWall.Redirect
import OxidizedWall.Admission
import OxidizedWall.Matches
import OxidizedWall.Remasking
import OxidizedWall.CardNumbers
import OxidizedWall.CardMasking
import OxidizedWall.Routing
import OxidizedWall.Hosts
import OxidizedWall.Charges
import OxidizedWall.Deadline
import OxidizedWall.Loaded
import OxidizedWall.Lib.Semaphore
import OxidizedWall.Process
import OxidizedWall.Resolution
import OxidizedWall.WebSocket
import OxidizedWall.Selection
import OxidizedWall.Lib.Separator
import OxidizedWall.Fields
import OxidizedWall.Firewall
import OxidizedWall.Answers
import OxidizedWall.Quota
import OxidizedWall.Lib.Expiry
import OxidizedWall.Memory
import OxidizedWall.Accountability
import OxidizedWall.HostNames
import OxidizedWall.Listening
