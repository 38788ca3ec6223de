import ConsoleScript.Text.Case

/-!
# Document addresses

Editors name documents by URI, and scripts are compiled under file paths. An address with the
scheme `file` stands for its path; any other address, and one that is not well formed, is used as
it is.
-/

namespace ConsoleScript.Uri

def isAlnum (b : UInt8) : Bool := isIdentByte b && b != 0x5F

/-- The byte sequence with escapes of the form `%xx` resolved. `accept` says which escapes and
which plain bytes are allowed; an incomplete escape is none. -/
def unescape? (escaped plain : UInt8 → Bool) : Text → Option Text
  | [] => some []
  | b :: t =>
    if b == 0x25 then
      match t with
      | x :: y :: rest =>
        match hexValue? x, hexValue? y with
        | some h, some l =>
          let v := (h * 16 + l).toUInt8
          if escaped v then (unescape? escaped plain rest).map (v :: ·) else none
        | _, _ => none
      | _ => none
    else if plain b then (unescape? escaped plain t).map (b :: ·)
    else none

def anyByte (_ : UInt8) : Bool := true

def unescapePath? (t : Text) : Option Text := unescape? anyByte anyByte t

def isHostByte (b : UInt8) : Bool :=
  b ≥ 0x80 || isAlnum b || List.contains (Text.ofString "!$&'()*+,;=:[]<>\"-_.~") b

/-- Only bytes outside of ASCII, and the percent sign, are escaped in the name of a host. -/
def isHostEscape (b : UInt8) : Bool := b ≥ 0x80 || b == 0x25

/-- Is the text empty or a colon followed by digits? -/
def isHostSuffix : Text → Bool
  | [] => true
  | b :: t => b == 0x3A && t.all isDigit

/-- What stands behind the last occurrence of a byte, with what stands before it. -/
def cutLast? (sep : UInt8) (t : Text) : Option (Text × Text) :=
  (Text.cut? sep t.reverse).map fun (after, before) => (before.reverse, after.reverse)

/-- Is the text the name of a host, perhaps followed by a colon and digits? -/
def isHost (t : Text) : Bool :=
  let numbered := match cutLast? 0x5B t with
    | some (_, inside) =>
      match cutLast? 0x5D inside with
      | some (_, suffix) => isHostSuffix suffix
      | none => false
    | none =>
      match cutLast? 0x3A t with
      | some (_, digits) => digits.all isDigit
      | none => true
  numbered && (unescape? isHostEscape isHostByte t).isSome

/-- Is the text the name of a user, perhaps with a password? -/
def isUser (t : Text) : Bool :=
  (t.all fun b => isAlnum b || List.contains (Text.ofString "-._:~!$&'()*+,;=%@") b)
    && (unescapePath? t).isSome

def isAuthority (t : Text) : Bool :=
  match cutLast? 0x40 t with
  | some (user, host) => isUser user && isHost host
  | none => isHost t

/-- The path in an address, behind its scheme and in front of its query. Without a leading slash
there is none. -/
def pathOf? (t : Text) : Option Text :=
  match Text.dropStart? "//" t with
  | some rest =>
    let authority := rest.takeWhile (· != 0x2F)
    if isAuthority authority then unescapePath? (rest.dropWhile (· != 0x2F)) else none
  | none => if t.head? == some 0x2F then unescapePath? t else some []

/-- What stands before the first occurrence of a byte. -/
def before (sep : UInt8) (t : Text) : Text := t.takeWhile (· != sep)

/-- The path that a document with a `file` address is compiled under. -/
def filePath? (uri : Text) : Option Text := do
  let address := before 0x23 uri
  let fragment := (uri.drop address.length).drop 1
  if address.any fun b => b < 0x20 || b == 0x7F then none
  if Text.lowerAscii (address.take 5) != Text.ofString "file:" then none
  let path ← pathOf? (before 0x3F (address.drop 5))
  let _ ← unescapePath? fragment
  return path

/-- The name that a document is compiled under. -/
def toPath (uri : Text) : Text := (filePath? uri).getD uri

def isPathByte (b : UInt8) : Bool := isAlnum b || List.contains (Text.ofString "-_.~$&+,/:;=@") b

def escapePath (t : Text) : Text :=
  if t == Text.ofString "*" then t
  else t.flatMap fun b =>
    if isPathByte b then [b]
    else 0x25 :: (Text.ofHex 2 b.toNat).map fun d => if 0x61 ≤ d && d ≤ 0x66 then d - 0x20 else d

/-- The address of a file. What looks like an address already is one. -/
def ofPath (path : Text) : Text :=
  if Text.contains "://" path then path
  else if path.isEmpty then "file:"
  else Text.ofString "file://" ++ escapePath path

end ConsoleScript.Uri
