import LanguageHost.Json.Schema

/-! What a server may announce when it is initialized. -/
namespace LanguageHost.Client

open Json (Schema Presence)
open Json.Schema (any bool string word int32 list record firstOf)

namespace Capabilities

private def must (name : String) (s : Schema) : String × Presence × Schema := (name, .required, s)
private def may (name : String) (s : Schema) : String × Presence × Schema := (name, .optional, s)

private def strings : Schema := list string

private def progress : String × Presence × Schema := may "workDoneProgress" bool

def progressOptions : Schema := record false [progress]

def switchOr (options : List Schema) : Schema := firstOf (bool :: options)

/-- A provider that is switched on and off or described by options. -/
def simpleProvider : Schema := switchOr [progressOptions]

def documentFilter : Schema := record true [may "language" string, may "scheme" string, may "pattern" string]

/-- The selector is written even when there is none. -/
def documentSelector : String × Presence × Schema := ("documentSelector", .nullable, list documentFilter)

def registration : Schema := record true [documentSelector, may "id" string]

def saveOptions : Schema := firstOf [bool, record true [may "includeText" bool]]

def textDocumentSync : Schema :=
  firstOf [int32, record true [may "openClose" bool, may "change" int32, may "willSave" bool,
    may "willSaveWaitUntil" bool, may "save" saveOptions]]

def notebookFilter : Schema :=
  firstOf [
    record false [must "notebook_type" string, may "scheme" string, may "pattern" string],
    record false [may "notebook_type" string, must "scheme" string, may "pattern" string],
    record false [may "notebook_type" string, may "scheme" string, must "pattern" string]]

def notebook : Schema := firstOf [string, notebookFilter]

def notebookCells : Schema := list (record true [must "language" string])

def notebookSelector : Schema :=
  firstOf [
    record false [must "notebook" notebook, may "cells" notebookCells],
    record false [may "notebook" notebook, must "cells" notebookCells]]

def notebookDocumentSync : Schema :=
  firstOf [
    record true [must "notebookSelector" (list notebookSelector), may "save" bool],
    record true [must "notebookSelector" (list notebookSelector), may "save" bool, may "id" string]]

def completion : Schema :=
  record false [may "resolveProvider" bool, may "triggerCharacters" strings, may "allCommitCharacters" strings,
    progress, may "completionItem" (record true [may "labelDetailsSupport" bool])]

def signatureHelp : Schema :=
  record false [may "triggerCharacters" strings, may "retriggerCharacters" strings, progress]

def documentSymbol : Schema := switchOr [record false [may "label" string, progress]]

def workspaceSymbol : Schema := switchOr [record false [progress, may "resolveProvider" bool]]

def codeAction : Schema :=
  switchOr [record false [may "codeActionKinds" strings, progress, may "resolveProvider" bool]]

def onTypeFormatting : Schema :=
  record true [must "firstTriggerCharacter" string, may "moreTriggerCharacter" strings]

def rename : Schema := switchOr [record false [may "prepareProvider" bool, progress]]

def documentLink : Schema := record false [may "resolveProvider" bool, progress]

def executeCommand : Schema := record false [must "commands" strings, progress]

def declaration : Schema :=
  switchOr [record false [progress, documentSelector, may "id" string], progressOptions]

/-- A provider with options that are empty or, failing that, of a registration. -/
def emptyProvider : Schema := switchOr [record true [], registration]

def filePattern : Schema :=
  record true [must "glob" string, may "matches" (word ["file", "folder"]),
    may "options" (record true [may "ignoreCase" bool])]

/-- The scheme is written even when there is none. -/
def fileFilter : Schema := record true [("scheme", .nullable, string), must "pattern" filePattern]

def fileOperation : Schema := record true [must "filters" (list fileFilter)]

def workspace : Schema :=
  record true [
    may "workspaceFolders" (record true [may "supported" bool, may "changeNotifications" (firstOf [bool, string])]),
    may "fileOperations" (record true (["didCreate", "willCreate", "didRename", "willRename", "didDelete",
      "willDelete"].map fun name => may name fileOperation))]

def semanticTokens : Schema :=
  record false [progress, must "legend" (record true [must "tokenTypes" strings, must "tokenModifiers" strings]),
    may "range" bool, may "full" (firstOf [bool, record false [may "delta" bool]])]

def inlayHint : Schema := switchOr [record false [progress, may "resolveProvider" bool]]

def diagnostic : Schema :=
  record false [may "identifier" string, must "interFileDependencies" bool, must "workspaceDiagnostics" bool, progress]

def schema : Schema :=
  record true [
    may "positionEncoding" string,
    may "textDocumentSync" textDocumentSync,
    may "notebookDocumentSync" notebookDocumentSync,
    may "selectionRangeProvider" simpleProvider,
    may "hoverProvider" simpleProvider,
    may "completionProvider" completion,
    may "signatureHelpProvider" signatureHelp,
    may "definitionProvider" simpleProvider,
    may "typeDefinitionProvider" (switchOr [registration]),
    may "implementationProvider" (switchOr [registration]),
    may "referencesProvider" simpleProvider,
    may "documentHighlightProvider" simpleProvider,
    may "documentSymbolProvider" documentSymbol,
    may "workspaceSymbolProvider" workspaceSymbol,
    may "codeActionProvider" codeAction,
    may "codeLensProvider" (record true [may "resolveProvider" bool]),
    may "documentFormattingProvider" simpleProvider,
    may "documentRangeFormattingProvider" simpleProvider,
    may "documentOnTypeFormattingProvider" onTypeFormatting,
    may "renameProvider" rename,
    may "documentLinkProvider" documentLink,
    may "colorProvider" emptyProvider,
    may "foldingRangeProvider" emptyProvider,
    may "declarationProvider" declaration,
    may "executeCommandProvider" executeCommand,
    may "workspace" workspace,
    may "callHierarchyProvider" simpleProvider,
    may "semanticTokensProvider" semanticTokens,
    may "monikerProvider" simpleProvider,
    may "linkedEditingRangeProvider" simpleProvider,
    may "inlineValueProvider" simpleProvider,
    may "inlayHintProvider" inlayHint,
    may "diagnosticProvider" diagnostic,
    may "experimental" any]

def ofJson? (v : Json) : Option Json := schema.fit? v

end Capabilities

def initializeResult : Schema :=
  record true [("capabilities", .required, Capabilities.schema),
    ("serverInfo", .optional, record true [("name", .required, string), ("version", .optional, string)])]

def announced? (result : Json) : Option Json := (initializeResult.fit? result).bind fun v => v.member? "capabilities"

end LanguageHost.Client
