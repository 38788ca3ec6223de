import ConsoleScript.Cbor.Parse
import ConsoleScript.Prefs.Store

/-!
# Preference files

A preference store is kept in a file: a line that names the format, and then the rows as data items.
An empty file holds an empty store.
-/

namespace ConsoleScript

def StoredKind.number : StoredKind → Nat
  | .text => 0
  | .int => 1
  | .float => 2

def StoredKind.ofNumber? : Nat → Option StoredKind
  | 0 => some .text
  | 1 => some .int
  | 2 => some .float
  | _ => none

namespace Preference

open Cbor

def toItem (p : Preference) : Item := .array [.bytes p.name, .uint p.kind.number, .bytes p.text]

def ofItem? : Item → Option Preference
  | .array [.bytes name, .uint kind, .bytes text] =>
    (StoredKind.ofNumber? kind).map fun k => ⟨name, k, text⟩
  | _ => none

end Preference

namespace PrefStore

def header : Text := "console preferences 1\n"

def encode (s : PrefStore) : Text :=
  header ++ (Cbor.Item.array (s.rows.map Preference.toItem)).encode

def decode? (t : Text) : Option PrefStore :=
  if t.isEmpty then some empty
  else do
    match ← Cbor.parse? (← Text.dropStart? header t) with
    | .array items => return (← items.mapM Preference.ofItem?).foldl insert empty
    | _ => none

end PrefStore
end ConsoleScript
