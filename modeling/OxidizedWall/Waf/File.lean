import OxidizedWall.Http

/-!
# File types (`waf/file.rs`)

The first bytes of a payload against executable signatures and against the declared type.
-/

namespace OxidizedWall.File

def bytesOf (s : String) : Bytes := HeaderValue.fromStatic s

def checkMagicNumber (body : Bytes) : Except String Unit :=
  if body.length < 4 then .ok ()
  else if (bytesOf "MZ").isPrefixOf body then .error "Executable file upload blocked (.exe/.dll)"
  else if [0x7F, 0x45, 0x4C, 0x46].isPrefixOf body then .error "ELF executable upload blocked"
  else if (bytesOf "#!/").isPrefixOf body || (bytesOf "<?php").isPrefixOf body then
    .error "Script file upload blocked"
  else .ok ()

def isAllowedFileType (contentType : Str) (body : Bytes) : Bool :=
  if body.length < 4 then true
  else if contentType = "image/jpeg".toList then [0xFF, 0xD8, 0xFF].isPrefixOf body
  else if contentType = "image/png".toList then [0x89, 0x50, 0x4E, 0x47].isPrefixOf body
  else if contentType = "image/gif".toList then (bytesOf "GIF8").isPrefixOf body
  else if contentType = "application/pdf".toList then (bytesOf "%PDF").isPrefixOf body
  else if contentType = "application/zip".toList then [0x50, 0x4B, 0x03, 0x04].isPrefixOf body
  else true

end OxidizedWall.File
