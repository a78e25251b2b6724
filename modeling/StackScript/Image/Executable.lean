import StackScript.Image.Decode

/-!
# Executables

An executable is a loader, a program file and the size of the program file in eight bytes, so that
the program is found from the end.
-/

namespace StackScript

namespace Executable

/-- The bytes of the size at the end. -/
def trailerSize : Nat := 8

/-- A loader and a program file as one executable. -/
def pack (loader payload : Bytes) : Bytes :=
  loader ++ payload ++ littleEndian trailerSize payload.length

/-- The program file in an executable, and the size of the loader in front of it. -/
def extract (exe : Bytes) : Except ImageError (Bytes × Nat) :=
  let size := exe.length
  if size < trailerSize + headerSize then .error (.truncated (.executable size))
  else
    let trailer := size - trailerSize
    let n := ofLittleEndian (exe.drop trailer)
    if n < headerSize || trailer < n then .error (.corrupt (.embedded n))
    else
      let payload := (exe.drop (trailer - n)).take n
      if startsWith Image.marker payload then .ok (payload, trailer - n) else .error .badMarker

end Executable

namespace Image

/-- Whether bytes begin as a program file does. -/
def isImage (s : Bytes) : Bool := startsWith marker s

/-- Reads a program file or the one in an executable. -/
def load (s : Bytes) : Except ImageError Image :=
  if isImage s then decode s
  else do
    let (payload, _) ← Executable.extract s
    decode payload

end Image

end StackScript
