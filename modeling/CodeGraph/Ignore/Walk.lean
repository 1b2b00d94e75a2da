import CodeGraph.Files.Tree
import CodeGraph.Ignore.Rule

/-!
# Walking through a folder

A walk lists the files below a folder. It passes over what is hidden and what the ignore files say:
each folder may have such files, and so may the folders around the one that the walk starts in. A
folder that is passed over is not entered. The files `.ignore` come before the files `.gitignore`,
and those before `.git/info/exclude`; among files of one name the innermost that says anything
counts. What a rule keeps is listed even if it is hidden.
-/

namespace CodeGraph

/-- The rules of one folder. -/
structure FolderRules where
  ignore : List IgnoreRule
  git : List IgnoreRule
  gitExclude : List IgnoreRule

namespace FolderRules

/-- The rules in a file below a folder. -/
def inFile (entries : List (String × FileTree)) (path : List String) : List IgnoreRule :=
  match (FileTree.folder entries).descend? path with
  | some (.file f) => IgnoreRule.ofContent f.content
  | _ => []

/-- The rules of a folder with these entries. -/
def ofEntries (entries : List (String × FileTree)) : FolderRules where
  ignore := inFile entries [".ignore"]
  git := inFile entries [".gitignore"]
  gitExclude := inFile entries [".git", "info", "exclude"]

end FolderRules

/-- A folder whose rules apply to a walk. -/
inductive RuleFolder
  /-- A folder that the walk is in, by its path. -/
  | within (path : String) (rules : FolderRules)
  /-- A folder around the start of the walk, by the names that lead from it to the start. -/
  | around (names : List String) (rules : FolderRules)

namespace RuleFolder

def rules : RuleFolder → FolderRules
  | within _ rules | around _ rules => rules

/-- The path without a dot and a slash in front. -/
def undot (path : String) : String := Path.withoutFront "./" path

/-- The path without the path of a folder in front. It is a matter of spelling alone. -/
def below (folder path : String) : String := Path.withoutFront "/" (Path.withoutFront folder path)

/-- A path as the rules of a folder see it. `start` is the path of the folder that the walk started
in. -/
def view (start path : String) : RuleFolder → String
  | within folder _ =>
    let path := undot (undot path)
    let folder := undot folder
    if Path.isHere folder || !path.toList.contains '/' then path
    else
      match Path.dropFront? folder.toList path.toList with
      | some rest => Path.withoutFront "/" (String.ofList rest)
      | none => path
  | around names _ =>
    let path := undot path
    let rest := if Path.isHere start then path else below (undot start) path
    Path.joinPieces (names ++ [rest])

/-- What the innermost folder says that says anything, by the rules of one kind. -/
def verdict? (kind : FolderRules → List IgnoreRule) (start path : String) (isFolder : Bool)
    (folders : List RuleFolder) : Option Verdict :=
  folders.findSome? fun f => IgnoreRule.verdict? (kind f.rules) (f.view start path) isFolder

end RuleFolder

/-- Whether a walk passes over an entry. The folders are listed from the innermost on. -/
def skips (folders : List RuleFolder) (start path name : String) (isFolder : Bool) : Bool :=
  let ask := fun kind => RuleFolder.verdict? kind start path isFolder folders
  match ask (·.ignore) <|> ask (·.git) <|> ask (·.gitExclude) with
  | some verdict => verdict == .skip
  | none => name.toList.head? == some '.'

namespace FileTree

mutual

/-- The paths of the files that a walk finds at `path` and below. -/
def walk (start : String) (folders : List RuleFolder) (path : String) : FileTree → List String
  | file _ => [path]
  | folder entries =>
    walkEntries start (.within path (.ofEntries entries) :: folders) path entries

/-- The paths of the files that a walk finds in the entries of the folder `path`. -/
def walkEntries (start : String) (folders : List RuleFolder) (path : String) :
    List (String × FileTree) → List String
  | [] => []
  | (name, t) :: rest =>
    let inner := Path.join path name
    (if skips folders start inner name (!t.isFile) then [] else t.walk start folders inner) ++
      walkEntries start folders path rest

end

/-- The folders around a place, from the innermost on, with the names behind them. -/
def foldersAround (t : FileTree) : List String → List String → List RuleFolder
  | [], _ => []
  | name :: outer, names =>
    let rules := FolderRules.ofEntries (t.atPlace (some outer)).entries
    .around (name :: names) rules :: t.foldersAround outer (name :: names)

/-- Whether a path stands for the standard input, in which there is nothing to walk through. -/
def isStandardInput (path : String) : Bool := Path.parts path == [.name "-"]

/-- The paths of the files that a walk through the folder `start` finds. -/
def filesBelow (t : FileTree) (start : String) : List String :=
  if isStandardInput start then []
  else
    match t.locate start with
    | .error _ => []
    | .ok place =>
      (t.atPlace place).walk start (t.foldersAround (place.getD []) []) start

end FileTree

end CodeGraph
