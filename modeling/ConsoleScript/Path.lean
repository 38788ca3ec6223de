import ConsoleScript.Text.Basic

/-!
# Paths

Paths are cleaned up by their spelling alone: repeated separators and `.` go, and `..` takes away
the component in front of it. Nothing is looked up.
-/

namespace ConsoleScript.Path

def slash : UInt8 := 0x2F

def here : Text := [0x2E]

def up : Text := [0x2E, 0x2E]

/-- Does the path start at the root? -/
def isAbs (p : Text) : Bool := p.head? == some slash

/-- Adds a component to those walked so far, the last one first. -/
def walk (rooted : Bool) (done : List Text) (c : Text) : List Text :=
  if c.isEmpty || c == here then done
  else if c == up then
    match done with
    | [] => if rooted then [] else [up]
    | d :: rest => if d == up then up :: done else rest
  else c :: done

/-- The components of a path after cleaning. -/
def components (p : Text) : List Text :=
  ((Text.splitOnByte slash p).foldl (walk (isAbs p)) []).reverse

def ofComponents (rooted : Bool) (cs : List Text) : Text :=
  if rooted then slash :: Text.join [slash] cs
  else if cs.isEmpty then here else Text.join [slash] cs

def clean (p : Text) : Text := ofComponents (isAbs p) (components p)

/-- The last component of a path. -/
def base (p : Text) : Text :=
  if p.isEmpty then here
  else match ((Text.splitOnByte slash p).filter (!·.isEmpty)).getLast? with
    | some c => c
    | none => [slash]

/-- Paths one below the other, cleaned. Empty ones do not count. -/
def join (ps : List Text) : Text :=
  match ps.filter (!·.isEmpty) with
  | [] => []
  | ps => clean (Text.join [slash] ps)

/-- What stands in front of the last component, cleaned. -/
def dir (p : Text) : Text :=
  let last := ((Text.splitOnByte slash p).getLast?).getD []
  clean (p.take (p.length - last.length))

/-- The extension of the last component, from its last point on. -/
def ext (p : Text) : Text :=
  let last := ((Text.splitOnByte slash p).getLast?).getD []
  if List.contains last 0x2E then 0x2E :: (last.reverse.takeWhile (· != 0x2E)).reverse else []

/-- The path as seen from the root, where `cwd` is the working directory. -/
def abs (cwd p : Text) : Text := if isAbs p then clean p else join [cwd, p]

/-- What two lists start with in common is dropped from both. -/
def dropCommon : List Text → List Text → List Text × List Text
  | a :: as, b :: bs => if a == b then dropCommon as bs else (a :: as, b :: bs)
  | as, bs => (as, bs)

/-- The path that leads from `origin` to `target`. There is none between a path from the root and
one that is not, or out of a place above that is not known. -/
def relative? (origin target : Text) : Option Text :=
  if isAbs origin != isAbs target then none
  else
    let (away, there) := dropCommon (components origin) (components target)
    if away.contains up then none
    else some (ofComponents false (away.map (fun _ => up) ++ there))

end ConsoleScript.Path
