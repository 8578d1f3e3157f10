import OxidizedWall.Collect
import OxidizedWall.Waf.Core
import OxidizedWall.Waf.Dlp
import OxidizedWall.Waf.File
import OxidizedWall.Waf.Path
import OxidizedWall.Waf.Structure

/-!
# The firewall (`waf/mod.rs`)

The three phases of inspection: the target and the headers of a request, its payload, and the
payload of the response.
-/

namespace OxidizedWall.Waf

def header (uri : Uri) (_method : Method) (headers : HeaderMap) : Except String Unit := do
  let normalizedPath := Path.normalizeUrl uri.target
  if Path.isTraversal normalizedPath then throw "Directory Traversal detected"
  if Core.isAttack (Utf8.encode normalizedPath) then throw "Malicious pattern detected in URI"
  if uri.query.any Structure.hasParameterPollution then
    throw "HTTP Parameter Pollution detected in URI"
  if ((headers.get USER_AGENT).bind HeaderValue.toStr).any Structure.isMaliciousBot then
    throw "Malicious Bot detected"

def body (unicode : Unicode) (headers : HeaderMap) (bodyBytes : Bytes) : Except String Unit := do
  File.checkMagicNumber bodyBytes
  if ((headers.get CONTENT_TYPE).bind HeaderValue.toStr).any fun ct =>
      !File.isAllowedFileType ct bodyBytes then
    throw "File signature mismatch with Content-Type"
  let bodyStr := Utf8.decodeLossy bodyBytes
  if !Structure.checkJsonDepth bodyStr 10 then throw "JSON nesting too deep"
  if Structure.isHighDensity unicode bodyStr (0.4 : Float32) then throw "High payload density detected"
  if Structure.hasParameterPollution bodyStr then throw "Parameter Pollution detected in payload"
  if Core.isAttack bodyBytes then throw "Malicious pattern detected in payload"

/-- The content types that `apply_dlp` takes for text. -/
def isText (headers : HeaderMap) : Bool :=
  ((headers.get CONTENT_TYPE).bind HeaderValue.toStr).any fun s =>
    ["text/", "json", "xml", "javascript"].any fun t => contains (toLowercase s) t.toList

def maskedBody (unicode : Unicode) (bytes : Bytes) : Body :=
  .full (Utf8.encode (Dlp.maskSensitiveInfo unicode (Utf8.decodeLossy bytes)))

def applyDlp {ε : Type} (unicode : Unicode) (headers : HeaderMap) (body : Body) :
    Future ε Body := do
  if !isText headers then return body
  match ← body.collect with
  | .ok bytes => return maskedBody unicode bytes
  | .error _ => return .empty

end OxidizedWall.Waf
