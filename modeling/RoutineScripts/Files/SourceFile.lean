import RoutineScripts.Encoding.Utf8
import RoutineScripts.Encoding.Windows1252

/-!
# Source files

A script file is read as UTF-8, with or without a byte order mark, and as Windows-1252 when it is
not well-formed UTF-8. The encoding is kept with the content, so that the file can be written back
the same way.
-/

namespace RoutineScripts

/-- The encoding a file was read in. -/
inductive SourceEncoding
  | utf8 (mark : Bool)
  | windows1252
  deriving DecidableEq, Repr

/-- The byte order mark as a character. -/
def byteOrderMark : Char := '\uFEFF'

/-- The text of a file and the encoding it was read in. The mark is not part of the text. -/
structure SourceFile where
  path : Text
  content : Text
  encoding : SourceEncoding
  deriving DecidableEq, Repr

namespace SourceEncoding

/-- Reads the bytes of a file. -/
def decode (bytes : Bytes) : Text × SourceEncoding :=
  match Utf8.decode? bytes with
  | none => (Windows1252.sniff bytes, windows1252)
  | some [] => ([], utf8 false)
  | some (c :: rest) =>
      if c = byteOrderMark then (rest, utf8 true) else (c :: rest, utf8 false)

/-- The bytes of a text in an encoding. -/
def encode (content : Text) : SourceEncoding → Bytes
  | utf8 true => Utf8.encode (byteOrderMark :: content)
  | utf8 false => Utf8.encode content
  | windows1252 => Windows1252.encode content

end SourceEncoding

end RoutineScripts
