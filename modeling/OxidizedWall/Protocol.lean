import OxidizedWall.Http
import OxidizedWall.Unicode

/-!
# Protocol checks (`protocol.rs`)

The target has no control characters, the host is given once, and the length of the body is given
in one way only.
-/

namespace OxidizedWall

inductive ProtocolError
  | invalidUri (control : Char)
  | invalidHost (reason : String)
  | requestSmuggling (reason : String)
  deriving DecidableEq

namespace Protocol

def validateUri (uri : Uri) : Except ProtocolError Unit :=
  match uri.target.find? isControl with
  | some c => .error (.invalidUri c)
  | none => .ok ()

def validateHost (headers : HeaderMap) (method : Method) (uri : Uri) : Except ProtocolError Unit :=
  if method ≠ .CONNECT then
    let hosts := headers.getAll HOST
    if hosts = [] ∧ uri.host = none then .error (.invalidHost "Missing Host or Authority")
    else if hosts.length > 1 then .error (.invalidHost "Duplicate Host header")
    else .ok ()
  else .ok ()

def validateSmuggling (headers : HeaderMap) : Except ProtocolError Unit :=
  if headers.containsKey CONTENT_LENGTH && headers.containsKey TRANSFER_ENCODING then
    .error (.requestSmuggling "Both CL and TE present")
  else .ok ()

end Protocol

end OxidizedWall
