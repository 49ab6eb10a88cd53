import S2Script.ByteFields
import S2Script.Json

/-! The tarballs the SDK packs, before they are gzipped: a ustar header of 512 bytes for each file,
and its content padded to whole blocks. -/
namespace S2Script.Tar

open ByteFields

/-- `Buffer.from(value,"utf8")`. -/
def utf8 (value : Text) : Bytes := value.flatMap String.utf8EncodeChar

structure TarFile where
  path : Text
  content : Bytes
  mode : Option Nat
deriving DecidableEq

section Writing

def writeString (header : Bytes) (value : Text) (offset size : Nat) : Except String Bytes :=
  let bytes := utf8 value
  if size < bytes.length then
    .error ("tar field overflow (" ++ toString bytes.length ++ ">" ++ toString size ++ ")")
  else .ok (write header bytes offset)

def writeOctal (header : Bytes) (value offset size : Nat) : Except String Bytes :=
  writeString header (octalDigits value (size - 1) ++ ['\x00']) offset size

structure UstarPath where
  name : Text
  prefixPart : Text
deriving DecidableEq

/-- The loop over the slashes of a path, with what is in front of the rest. -/
def splitAtSlash (front : Text) : Text → Option UstarPath
  | [] => none
  | c :: rest =>
    if c = '/' then
      if 155 < (utf8 front).length then none
      else if rest ≠ [] ∧ (utf8 rest).length ≤ 100 then some ⟨rest,front⟩
      else splitAtSlash (front ++ [c]) rest
    else splitAtSlash (front ++ [c]) rest

def splitUstarPath (path : Text) : Except String UstarPath :=
  if (utf8 path).length ≤ 100 then .ok ⟨path,[]⟩
  else
    match splitAtSlash [] path with
    | some parts => .ok parts
    | none => .error ("path too long for a tar archive (max 255 bytes, split at a \"/\"): " ++ String.ofList path)

/-- `header.fill(0x20,148,156)`. -/
def spaces : Bytes := List.replicate 8 0x20

/-- The sum of the bytes of a header. -/
def byteSum (header : Bytes) : Nat := (header.map UInt8.toNat).sum

/-- The header but for its checksum, which is eight spaces. -/
def unsummedHeader (file : TarFile) (mtime : Nat) : Except String Bytes := do
  let parts ← splitUstarPath file.path
  let header ← writeString (List.replicate 512 0) parts.name 0 100
  let header ← writeOctal header (file.mode.getD 0o644) 100 8
  let header ← writeOctal header 0 108 8
  let header ← writeOctal header 0 116 8
  let header ← writeOctal header file.content.length 124 12
  let header ← writeOctal header mtime 136 12
  let header := write header spaces 148
  let header := write header [48] 156
  let header ← writeString header ['u','s','t','a','r','\x00'] 257 6
  let header ← writeString header ['0','0'] 263 2
  writeString header parts.prefixPart 345 155

def tarHeader (file : TarFile) (mtime : Nat) : Except String Bytes := do
  let header ← unsummedHeader file mtime
  writeString header (octalDigits (byteSum header) 6 ++ ['\x00',' ']) 148 8

def padLen (length : Nat) : Nat := (512 - length % 512) % 512

/-- The parts of `packTar` for its files. -/
def packFiles (mtime : Nat) : List TarFile → Except String Bytes
  | [] => .ok []
  | file :: rest => do
    let header ← tarHeader file mtime
    let later ← packFiles mtime rest
    return header ++ file.content ++ List.replicate (padLen file.content.length) 0 ++ later

/-- `packTar` before `gzipSync`, with the time of the files settled. -/
def packTar (files : List TarFile) (mtime : Nat) : Except String Bytes := do
  let parts ← packFiles mtime files
  return parts ++ List.replicate 1024 0

end Writing

section Reading

/-- What an archive has of a file. -/
structure Entry where
  path : Text
  mode : Nat
  content : Bytes
deriving DecidableEq

structure EntryHeader where
  path : Text
  mode : Nat
  size : Nat

/-- A text up to the first zero byte of its field. -/
def cString (field : Bytes) : Bytes := field.takeWhile (· ≠ 0)

/-- The text that some bytes encode. -/
def decode (bytes : Bytes) : Option Text := bytes.toByteArray.utf8Decode?.map Array.toList

/-- The sum of a header with spaces for its checksum. -/
def checksum (header : Bytes) : Nat := byteSum (write header spaces 148)

/-- The path that the fields of a header name. -/
def joinPath (name prefixPart : Bytes) : Bytes := if prefixPart = [] then name else prefixPart ++ 47 :: name

/-- A header of POSIX ustar, of a regular file. -/
def readHeader (header : Bytes) : Option EntryHeader :=
  if header.length = 512 ∧ readOctal (field header 148 8) = some (checksum header) ∧
      field header 257 6 = [117,115,116,97,114,0] ∧ field header 263 2 = [48,48] ∧ field header 156 1 = [48] then do
    let path ← decode (joinPath (cString (field header 0 100)) (cString (field header 345 155)))
    let mode ← readOctal (field header 100 8)
    let size ← readOctal (field header 124 12)
    return ⟨path,mode,size⟩
  else none

/-- The files of an archive up to two zero blocks. -/
def readFiles : Nat → Bytes → Option (List Entry)
  | 0,_ => none
  | fuel + 1,bytes =>
    if bytes.take 1024 = List.replicate 1024 0 then some []
    else
      match readHeader (bytes.take 512) with
      | none => none
      | some header =>
        let body := bytes.drop 512
        if body.length < header.size then none
        else
          (readFiles fuel (body.drop (header.size + padLen header.size))).map
            (⟨header.path,header.mode,body.take header.size⟩ :: ·)

/-- An archive of POSIX ustar. -/
def readTar (archive : Bytes) : Option (List Entry) := readFiles archive.length archive

end Reading

end S2Script.Tar
