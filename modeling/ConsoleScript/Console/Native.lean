import ConsoleScript.Console.Value

/-!
# Native commands

Commands that are not written in script: those every console has, and those the program around it
adds. This module only names them and says how they are registered; what they do is defined where
the state they act on is.
-/

namespace ConsoleScript

inductive ResultKind where
  | text | int | float | void | bool
  deriving DecidableEq, Repr

/-- Commands that neither run script nor delete objects. -/
inductive Builtin where
  | echo | warn | error | backtrace
  | activatePackage | deactivatePackage | isPackage | isActivePackage
  | isFunction | isObject | nameToId
  | exportVars | deleteVariables
  | strlen | getWordCount | getWord
  | getId | getName | getClassName | isMemberOfClass | getGroup
  | getFieldValue | setFieldValue | getFieldCount
  | setAdd | setRemove | setClear | setCount | setObject | setIsMember
  /-- Saves and loads preferences; without a pattern of its own, those of the given one. -/
  | savePrefs (pattern : Text) | loadPrefs (pattern : Text)
  | quit
  deriving DecidableEq, Repr

/-- What a command of the surrounding program answers: a line to print, and its result. -/
structure Reply where
  printed : Option Text := none
  result : Value := .text []

inductive Native where
  | builtin (b : Builtin)
  /-- Runs a script file. -/
  | execFile
  /-- Runs a text as script in the scope of the caller. -/
  | evalText
  /-- Deletes the receiver. -/
  | deleteObject
  /-- A command of the surrounding program. It gets the number of the receiver and the arguments. -/
  | host (f : Option UInt32 → List Text → Reply)

/-- A line of the list of commands that a namespace starts with. -/
inductive Registration where
  /-- Starts a group in the documentation. -/
  | group (name usage : Text)
  /-- Documents a function that scripts may define to be told of something. -/
  | callback (name usage : Text)
  /-- A command. A bound of zero on the number of arguments is none. -/
  | command (name : Text) (kind : ResultKind) (native : Native) (usage : Text)
      (minArgs maxArgs : Int)

namespace Registration

/-- A command every console has. -/
def plain (name : Text) (kind : ResultKind) (b : Builtin) (usage : Text) (minArgs maxArgs : Int) :
    Registration :=
  .command name kind (.builtin b) usage minArgs maxArgs

def globals : List Registration := [
  .group "Output" [],
  plain "echo" .void .echo "echo(text [, ...])" 1 0,
  plain "warn" .void .warn "warn(text [, ...])" 1 0,
  plain "error" .void .error "error(text [, ...])" 1 0,
  plain "backtrace" .void .backtrace "backtrace()" 0 0,
  .group "Packages" [],
  plain "activatePackage" .bool .activatePackage "activatePackage(package)" 1 1,
  plain "deactivatePackage" .bool .deactivatePackage "deactivatePackage(package)" 1 1,
  plain "isPackage" .bool .isPackage "isPackage(package)" 1 1,
  plain "isActivePackage" .bool .isActivePackage "isActivePackage(package)" 1 1,
  .group "Reflection" [],
  plain "isFunction" .bool .isFunction "isFunction(name)" 1 1,
  plain "isObject" .bool .isObject "isObject(object)" 1 1,
  plain "nameToID" .int .nameToId "nameToID(name)" 1 1,
  .group "Variables" [],
  plain "export" .void .exportVars "export(pattern [, file [, append]])" 1 3,
  plain "deleteVariables" .int .deleteVariables "deleteVariables(pattern)" 1 1,
  .group "Strings" [],
  plain "strlen" .int .strlen "strlen(string)" 1 1,
  plain "getWordCount" .int .getWordCount "getWordCount(text)" 1 1,
  plain "getWord" .text .getWord "getWord(text, index)" 2 2,
  .group "Execution" [],
  .command "exec" .bool .execFile "exec(file)" 1 1,
  .command "eval" .text .evalText "eval(code)" 1 1]

def objects : List Registration := [
  .group "Callbacks" [],
  .callback "onAdd" "Called when the object is registered.",
  .callback "onRemove" "Called before the object is deleted.",
  .group "Identity" [],
  plain "getId" .int .getId "obj.getId()" 1 1,
  plain "getName" .text .getName "obj.getName()" 1 1,
  plain "getClassName" .text .getClassName "obj.getClassName()" 1 1,
  plain "isMemberOfClass" .bool .isMemberOfClass "obj.isMemberOfClass(className)" 2 2,
  .command "delete" .void .deleteObject "obj.delete()" 1 1,
  plain "getGroup" .int .getGroup "obj.getGroup()" 1 1,
  .group "Fields" [],
  plain "getFieldValue" .text .getFieldValue "obj.getFieldValue(field)" 2 2,
  plain "setFieldValue" .void .setFieldValue "obj.setFieldValue(field, value)" 3 3,
  plain "getFieldCount" .int .getFieldCount "obj.getFieldCount()" 1 1]

def sets : List Registration := [
  plain "add" .void .setAdd "set.add(obj1, ...)" 2 0,
  plain "remove" .void .setRemove "set.remove(obj1, ...)" 2 0,
  plain "clear" .void .setClear "set.clear()" 1 1,
  plain "getCount" .int .setCount "set.getCount()" 1 1,
  plain "getObject" .int .setObject "set.getObject(index)" 2 2,
  plain "isMember" .bool .setIsMember "set.isMember(obj)" 2 2]

def prefs (pattern : Text) : List Registration := [
  plain "savePrefs" .int (.savePrefs pattern) "savePrefs([pattern])" 0 1,
  plain "loadPrefs" .int (.loadPrefs pattern) "loadPrefs([pattern])" 0 1]

def session : List Registration := [plain "quit" .void .quit "quit()" 0 0]

end Registration
end ConsoleScript
