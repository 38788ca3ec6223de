import ConsoleScript.Console.State
import ConsoleScript.Docs.Yaml

/-!
# Documentation

What a console can call, described namespace by namespace: as a listing of classes, as a listing
of functions, and as YAML.
-/

namespace ConsoleScript

structure EntryDoc where
  name : Text
  kind : EntryKind
  /-- The heading it stands under. -/
  group : Text
  usage : Text
  minArgs : Int
  maxArgs : Int
  /-- Where a script function is declared. -/
  file : Text
  line : UInt32

structure SpaceDoc where
  name : Text
  package : Text
  parent : Text
  isClass : Bool
  entries : List EntryDoc

namespace Console

/-- Describes entries, given oldest first. Headings go to the entries behind them. -/
def entryDocs (c : Console) (group : Text) : List EntryId → List EntryDoc
  | [] => []
  | id :: rest =>
    match c.spaces.entries[id]? with
    | none => c.entryDocs group rest
    | some e =>
      let doc (file : Text) (line : UInt32) : EntryDoc := {
        name := c.names.text? e.name, kind := e.body.kind, group := group, usage := e.usage
        minArgs := e.minArgs, maxArgs := e.maxArgs, file := file, line := line }
      match e.body with
      | .group => c.entryDocs (c.names.text? e.name) rest
      | .script block _ line => doc (c.blocks.unit block).name line :: c.entryDocs group rest
      | _ => doc [] 0 :: c.entryDocs group rest

def spaceDoc (c : Console) (id : SpaceId) : SpaceDoc :=
  let n := c.spaces.space id
  { name := c.names.text? n.name
    package := c.names.text? n.package
    parent := match n.parent with
      | some p => c.names.text? (c.spaces.space p).name
      | none => []
    isClass := n.name.any c.classes.contains
    entries := c.entryDocs [] n.entries.reverse }

/-- Describes all namespaces, in the order of their packages and then of their names without
regard to letter case. -/
def docs (c : Console) : List SpaceDoc :=
  let all := (List.range c.spaces.spaces.size).map c.spaceDoc
  all.mergeSort fun a b =>
    if a.package == b.package then Text.le (Text.lower a.name) (Text.lower b.name)
    else Text.le a.package b.package

end Console

namespace EntryDoc

def listing (e : EntryDoc) : Text :=
  let usage := if e.usage.isEmpty then [] else Text.ofString " - " ++ e.usage
  let place := if e.file.isEmpty then [] else
    Text.ofString " (" ++ e.file ++ Text.ofString ":" ++ Text.ofNat e.line.toNat ++ Text.ofString ")"
  Text.ofString "   " ++ e.name ++ Text.ofString " [" ++ e.kind.name ++ Text.ofString "]" ++ usage
    ++ place ++ [0x0A]

/-- Entries as lines of a listing. A heading is written where it changes. -/
def listings (group : Text) : List EntryDoc → Text
  | [] => []
  | e :: rest =>
    let heading := if e.group != group && !e.group.isEmpty then
        Text.ofString "   /* " ++ e.group ++ Text.ofString " */\n" else []
    heading ++ e.listing ++ listings e.group rest

/-- A key with an integer, unless that is zero. -/
def yamlInt (indent : Nat) (key : Text) (i : Int) : Text :=
  if i == 0 then []
  else Yaml.indentation indent ++ key ++ Text.ofString ": " ++ Text.ofInt i ++ [0x0A]

def yamlText (indent : Nat) (key : Text) (t : Text) : Text :=
  if t.isEmpty then [] else Yaml.indentation indent ++ Yaml.textLine indent key t

def yaml (e : EntryDoc) : Text :=
  Text.ofString "    - " ++ Yaml.textLine 6 "name" e.name
    ++ Yaml.indentation 6 ++ Yaml.textLine 6 "kind" e.kind.name
    ++ yamlText 6 "group" e.group ++ yamlText 6 "usage" e.usage
    ++ yamlInt 6 "minArgs" e.minArgs ++ yamlInt 6 "maxArgs" e.maxArgs
    ++ yamlText 6 "file" e.file ++ yamlInt 6 "line" e.line.toNat

end EntryDoc

namespace SpaceDoc

/-- A namespace as a listing. -/
def listing (heading : Text) (d : SpaceDoc) : Text :=
  heading ++ Text.ofString " \x7b\n" ++ EntryDoc.listings [] d.entries ++ Text.ofString "\x7d;\n"

def yaml (d : SpaceDoc) : Text :=
  Text.ofString "- " ++ Yaml.textLine 2 "name" d.name
    ++ EntryDoc.yamlText 2 "package" d.package ++ EntryDoc.yamlText 2 "parent" d.parent
    ++ (if d.isClass then Text.ofString "  class: true\n" else [])
    ++ (if d.entries.isEmpty then [] else Text.ofString "  entries:\n" ++ d.entries.flatMap (·.yaml))

end SpaceDoc

namespace Console

def dumpClasses (c : Console) : Text :=
  (c.docs.filter fun d => d.isClass && d.package.isEmpty).flatMap fun d =>
    let parent := if d.parent.isEmpty then [] else Text.ofString " : " ++ d.parent
    d.listing (Text.ofString "class " ++ d.name ++ parent)

/-- The other namespaces with their functions, those of packages included. -/
def dumpFunctions (c : Console) : Text :=
  (c.docs.filter fun d => !d.isClass && !d.entries.isEmpty).flatMap fun d =>
    let name := if d.name.isEmpty then Text.ofString "<global>" else d.name
    let package := if d.package.isEmpty then [] else
      Text.ofString "[" ++ d.package ++ Text.ofString "]"
    d.listing (Text.ofString "namespace " ++ package ++ name)

def dumpYaml (c : Console) : Text := c.docs.flatMap (·.yaml)

end Console
end ConsoleScript
