import JarIndex.Deflate.BitStream

/-!
# What can be wrong with an archive or one of its members
-/

set_option autoImplicit false

namespace JarIndex.Archive

inductive Fault where
  | endsEarly
  | tooShort
  | noEndRecord
  | multiDisk
  | directoryBounds
  | noRoomForWideEnd
  | noWideEnd
  | directoryHeader
  | aesFieldLength
  | aesVendor
  | aesVendorVersion
  | aesStrength
  | aesWithoutField
  | headerOffset
  | localHeader
  | encrypted
  | method
  | checksum
  | deflate (f : Deflate.Fault)
  deriving DecidableEq, Repr

namespace Fault

def invalid (what : String) : String := "invalid Zip archive: " ++ what

def unsupported (what : String) : String := "unsupported Zip archive: " ++ what

def message : Fault → String
  | .endsEarly => "failed to fill whole buffer"
  | .tooShort => invalid "Invalid zip header"
  | .noEndRecord => invalid "Could not find central directory end"
  | .multiDisk => unsupported "Support for multi-disk files is not implemented"
  | .directoryBounds => invalid "Invalid central directory size or offset"
  | .noRoomForWideEnd => invalid "File cannot contain ZIP64 central directory end"
  | .noWideEnd => invalid "Could not find ZIP64 central directory end"
  | .directoryHeader => invalid "Invalid Central Directory header"
  | .aesFieldLength => unsupported "AES extra data field has an unsupported length"
  | .aesVendor => invalid "Invalid AES vendor"
  | .aesVendorVersion => invalid "Invalid AES vendor version"
  | .aesStrength => invalid "Invalid AES encryption strength"
  | .aesWithoutField => invalid "AES encryption without AES extra data field"
  | .headerOffset => invalid "Archive header is too large"
  | .localHeader => invalid "Invalid local file header"
  | .encrypted => unsupported "Password required to decrypt file"
  | .method => unsupported "Compression method not supported"
  | .checksum => "Invalid checksum"
  | .deflate .incomplete => "incomplete deflate stream"
  | .deflate .corrupt => "corrupt deflate stream"

end Fault

end JarIndex.Archive
