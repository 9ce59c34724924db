import ChromeLight.Prescan

/-!
# URLs and local files

`crates/net`: URLs over the `url` crate, and the loader of `file:` URLs with its cap. The crate is a parameter (`UrlCrate`), and so
is the file system: the size it reports and the bytes it then gives need have nothing to do with each other, since a file may
change between the two, and a stream of bytes need not end.
-/

namespace ChromeLight

/-- `u64::MAX`. -/
def u64Max : Nat := 18446744073709551615

namespace Net

inductive NetError where
  | url (text : String)
  | unsupportedScheme (scheme : String)
  | io (text : String)
  | tooLarge (size max : Nat)
deriving DecidableEq, Repr

def NetError.message : NetError → String
  | .url text => "invalid url: " ++ text
  | .unsupportedScheme scheme => "unsupported url scheme: " ++ scheme
  | .io text => "io error: " ++ text
  | .tooLarge size max => "file too large: " ++ toString size ++ " bytes exceeds cap of " ++ toString max ++ " bytes"

/-- What the `url` crate does; `υ` are its URLs, `ρ` the paths of the platform. -/
structure UrlCrate (υ ρ : Type) where
  parse : String → Except String υ
  parseWithBase : String → υ → Except String υ
  fromFilePath : ρ → Option υ
  scheme : υ → String
  asStr : υ → String
  hostStr : υ → Option String
  toFilePath : υ → Option ρ
  display : ρ → String

section

variable {υ ρ : Type} (C : UrlCrate υ ρ)

namespace Url

def parse (input : String) : Except NetError υ := (C.parse input).mapError .url

def parseWithBase (input : String) (base : υ) : Except NetError υ := (C.parseWithBase input base).mapError .url

def fromFilePath (p : ρ) : Except NetError υ :=
  match C.fromFilePath p with
  | some url => .ok url
  | none => .error (.url ("not a valid absolute file path: " ++ C.display p))

/-- The path of a URL on this machine: a host other than `localhost` has none. -/
def toFilePath (url : υ) : Option ρ :=
  match C.hostStr url with
  | none => C.toFilePath url
  | some host => if host = "" ∨ host = "localhost" then C.toFilePath url else none

def join (url : υ) (relative : String) : Except NetError υ := parseWithBase C relative url

end Url

/-! ## Files -/

/-- What reading an open file finds at each place: a byte, the end, or an error. -/
abbrev Stream := Nat → Except String (Option UInt8)

/-- The file system, which answers each call as it is at that moment. -/
structure FileSystem (ρ : Type) where
  /-- The size that is reported. -/
  metadata : ρ → Except String Nat
  openFile : ρ → Except String Stream
  canonicalize : ρ → Except String ρ

/-- `MAX_FILE_BYTES`. -/
def maxFileBytes : Nat := 32 * 1024 * 1024

/-- `take(limit).read_to_end`, from a place on. -/
def readToEnd (stream : Stream) : Nat → Nat → Except String Bytes
  | 0, _ => .ok []
  | limit + 1, place =>
    match stream place with
    | .error e => .error e
    | .ok none => .ok []
    | .ok (some b) => (readToEnd stream limit (place + 1)).map (b :: ·)

variable (fs : FileSystem ρ)

def loadFileWithCap (url : υ) (cap : Nat) : Except NetError Bytes :=
  if C.scheme url ≠ "file" then .error (.unsupportedScheme (C.scheme url))
  else match Url.toFilePath C url with
    | none => .error (.url ("file url does not map to a local path (host?): " ++ C.asStr url))
    | some path =>
      match fs.metadata path with
      | .error e => .error (.io e)
      | .ok size =>
        if cap < size then .error (.tooLarge size cap)
        else match fs.openFile path with
          | .error e => .error (.io e)
          | .ok stream =>
            match readToEnd stream (min (cap + 1) u64Max) 0 with
            | .error e => .error (.io e)
            | .ok buf => if cap < buf.length then .error (.tooLarge buf.length cap) else .ok buf

def loadFile (url : υ) : Except NetError Bytes := loadFileWithCap C fs url maxFileBytes

end

end Net

end ChromeLight
