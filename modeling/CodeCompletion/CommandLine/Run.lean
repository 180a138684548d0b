import CodeCompletion.CommandLine.Folder
import CodeCompletion.CommandLine.Help
import CodeCompletion.CommandLine.Report
import CodeCompletion.Realm.Standard
import CodeCompletion.Session.Basic
import CodeCompletion.Settings.File

/-! What the command line answers, given its arguments and the files that they name. -/
namespace CodeCompletion.CommandLine

structure Outcome where
  code : Nat
  out : String
  err : String

def unlines (lines : List String) : String :=
  String.join (lines.map (· ++ "\n"))

namespace Invocation

def success (lines : List String) : Outcome := ⟨0, unlines lines, ""⟩

/-- Fails with a message, unless there should be none. -/
def failure (i : Invocation) (message : String) : Outcome :=
  let line :=
    match i.output with
    | .text => message
    | .json => (JsonValue.obj [("error", .str message)]).compact
  ⟨1, "", if i.quiet then "" else unlines [line]⟩

def showCandidates (i : Invocation) (found : Completions) : Outcome :=
  match i.output with
  | .json => success [(Report.candidatesJson found).pretty 0]
  | .text =>
    if found.isEmpty then ⟨0, "", if i.quiet then "" else "no completions\n"⟩
    else success (Report.candidateLines found)

def showIntent (i : Invocation) (intent : Option Intent) : Outcome :=
  match i.output, intent with
  | .json, _ => success [(Report.intentJson intent).pretty 0]
  | .text, some intent => success (Report.intentLines intent)
  | .text, none =>
    success (if i.quiet then [] else ["no completion context at " ++ i.caret.display])

def showScope (i : Invocation) (scope : Shape) : Outcome :=
  match i.output with
  | .json => success [(Report.shapeJson scope).pretty 0]
  | .text =>
    if scope.properties.isEmpty then success (if i.quiet then [] else ["(no symbols)"])
    else success (Report.scopeLines scope)

def answer (i : Invocation) (settings : Settings) (source : String) : Outcome :=
  match i.command with
  | .complete =>
    let settings := { settings with
      sandbox := settings.sandbox && !i.noSandbox
      keywords := settings.keywords && !i.noKeywords }
    i.showCandidates ((Session.start settings (some .standard)).complete ⟨source, i.caret⟩).1
  | .context => i.showIntent (contextAt source i.caret)
  | .scope =>
    match parseAt source i.caret with
    | .error e => i.failure e.message
    | .ok program => i.showScope (visibleAt program.body i.caret settings.limits)

def settings (i : Invocation) (text : FileText) : Except String Settings :=
  match i.config with
  | none => .ok {}
  | some path =>
    match text with
    | .error e => .error ("error reading config '" ++ path ++ "': " ++ e.message)
    | .ok text =>
      match SettingsFile.settings text with
      | .error e => .error ("invalid config '" ++ path ++ "': " ++ e.message)
      | .ok settings => .ok settings

def source (i : Invocation) (text : FileText) : Except String String :=
  match text with
  | .error e => .error ("error reading file '" ++ i.file ++ "': " ++ e.message)
  | .ok text =>
    match requireCaret text i.caret with
    | .error e => .error e.message
    | .ok _ => .ok text

/-- Carries out a command. The settings are read first, whether it needs them or not. -/
def run (i : Invocation) (config text : FileText) : Outcome :=
  match (do return (← i.settings config, ← i.source text) : Except String _) with
  | .error message => i.failure message
  | .ok (settings, source) => i.answer settings source

def files (i : Invocation) : List String :=
  i.config.toList ++ [i.file]

end Invocation

def respond (arguments : List String) (file : String → FileText) : Outcome :=
  match readArguments arguments with
  | .error e => ⟨2, "", "error: " ++ e.message ++ "\n"⟩
  | .ok .version => ⟨0, versionText, ""⟩
  | .ok (.help topic) => ⟨0, unlines (helpLines topic), ""⟩
  | .ok (.run invocation) =>
    invocation.run (file (invocation.config.getD "")) (file invocation.file)

def filesOf (arguments : List String) : List String :=
  match readArguments arguments with
  | .ok (.run invocation) => invocation.files
  | _ => []

end CodeCompletion.CommandLine
