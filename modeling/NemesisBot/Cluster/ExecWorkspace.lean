import NemesisBot.Cluster.Transfer

/-! The changeset of a finished task: the working copy as the scan finds it, against the
manifest of its baseline. -/
namespace NemesisBot.ExecWorkspace
open Strings Transfer

def BASELINE_SIDECAR_NAME : Text := ".baseline.json".toList

def isDebugArtifact (path : Text) : Bool :=
  path = "_debug".toList || "_debug/".toList.isPrefixOf path

def isBuildArtifact (path : Text) : Bool :=
  path = "target".toList || "target/".toList.isPrefixOf path

/-- A directory entry; each flag is false where the system fails to give it. -/
structure DirEntry where
  name : Text
  listed : Bool
  utf8 : Bool
  stat : Bool

/-- The entries of a directory, with what each one is. A file can fail at the scan (`opens`)
and at the second read (`reads`). Links and devices are `other`. -/
inductive Entries where
  | nil
  | file (e : DirEntry) (content : ByteArray) (opens reads : Bool) (rest : Entries)
  | dir (e : DirEntry) (lists : Bool) (children rest : Entries)
  | other (e : DirEntry) (rest : Entries)

inductive Skipped where
  | listing (dir : Text)
  | reading (path : Text)
  | encoding (path : Text)
  deriving DecidableEq, Repr

structure Found where
  files : List TransferFileEntry
  skipped : List Skipped

def Found.nothing : Found := ⟨[], []⟩

def Found.append (a b : Found) : Found := ⟨a.files ++ b.files, a.skipped ++ b.skipped⟩

def fenced (path : Text) : Bool := match safeRelativePath path with
  | .ok _ => false
  | .error _ => true

/-- The path under the root, with `/` for every separator. -/
def normalized (dir name : Text) : Text :=
  let piece := name.map fun c => if c = '\\' then '/' else c
  if dir = [] then piece else dir ++ '/' :: piece

/-- The checks that come before the kind of an entry matters. -/
def visit (e : DirEntry) (path : Text) (found : Found) : Found :=
  if !e.listed then .nothing
  else if !e.utf8 then ⟨[], [.encoding path]⟩
  else if fenced path then .nothing
  else if !e.stat then .nothing
  else found

/-- The noise rules, with `_debug` pruned on the way down. -/
def prunedDir (path : Text) : Bool := isDebugArtifact path || isNoiseDir path

section
variable (sha256Hex : ByteArray → Text)

def fingerprint (path : Text) (content : ByteArray) : TransferFileEntry :=
  ⟨path, content.size, sha256Hex content⟩

def diffWalk (dir : Text) : Entries → Found
  | .nil => .nothing
  | .file e content opens _ rest =>
    (visit e (normalized dir e.name)
      (if isNoiseFile (normalized dir e.name) then .nothing
      else if opens then ⟨[fingerprint sha256Hex (normalized dir e.name) content], []⟩
      else ⟨[], [.reading (normalized dir e.name)]⟩)).append (diffWalk dir rest)
  | .dir e lists children rest =>
    (visit e (normalized dir e.name)
      (if prunedDir (normalized dir e.name) then .nothing
      else if lists then diffWalk (normalized dir e.name) children
      else ⟨[], [.listing (normalized dir e.name)]⟩)).append (diffWalk dir rest)
  | .other e rest => (visit e (normalized dir e.name) .nothing).append (diffWalk dir rest)
end

/-! Every file and directory that is there, found or not. -/

/-- What stands between the scan and an entry; the last two are exclusions. -/
inductive FaultKind where
  | entry
  | stat
  | listing
  | opening
  | fence
  | pruned
  deriving DecidableEq, Repr

def FaultKind.fails : FaultKind → Bool
  | .fence | .pruned => false
  | _ => true

structure Fault where
  path : Text
  kind : FaultKind
  deriving DecidableEq

/-- `body` holds a file's content and whether the second read goes through. -/
structure Item where
  path : Text
  body : Option (ByteArray × Bool)
  fault : Option Fault
  deriving DecidableEq

def ownFault (e : DirEntry) (path : Text) (pruned readable : Bool) (kind : FaultKind) :
    Option Fault :=
  if !e.listed then some ⟨path, .entry⟩
  else if fenced path then some ⟨path, .fence⟩
  else if !e.stat then some ⟨path, .stat⟩
  else if pruned then some ⟨path, .pruned⟩
  else if !readable then some ⟨path, kind⟩
  else none

/-- A fault above an entry comes before its own. No manifest names what is not UTF-8. -/
def census (dir : Text) (above : Option Fault) : Entries → List Item
  | .nil => []
  | .file e content opens reads rest =>
    (if e.utf8 then [⟨normalized dir e.name, some (content, reads),
      above.or (ownFault e (normalized dir e.name) (isNoiseFile (normalized dir e.name)) opens
        .opening)⟩] else []) ++ census dir above rest
  | .dir e lists children rest =>
    (if e.utf8 then
      ⟨normalized dir e.name, none, above.or (ownFault e (normalized dir e.name)
        (prunedDir (normalized dir e.name)) lists .listing)⟩ ::
      census (normalized dir e.name) (above.or (ownFault e (normalized dir e.name)
        (prunedDir (normalized dir e.name)) lists .listing)) children
    else []) ++ census dir above rest
  | .other _ rest => census dir above rest

def rootFault (lists : Bool) : Option Fault :=
  if lists then none else some ⟨"_root_".toList, .listing⟩

structure WorkingCopy where
  lists : Bool
  entries : Entries
  unique : ((census [] (rootFault lists) entries).map (·.path)).Nodup

def WorkingCopy.items (w : WorkingCopy) : List Item := census [] (rootFault w.lists) w.entries

def WorkingCopy.at (w : WorkingCopy) (path : Text) : Option (ByteArray × Bool) :=
  (w.items.find? (·.path = path)).bind (·.body)

def WorkingCopy.content (w : WorkingCopy) (path : Text) : Option ByteArray :=
  (w.at path).map (·.1)

/-- `fs::read` of a path in the working copy. -/
def WorkingCopy.read (w : WorkingCopy) (path : Text) : Option ByteArray :=
  (w.at path).bind fun b => if b.2 then some b.1 else none

/-! The changeset. -/

structure ChangesetUpsert where
  path : Text
  sha256 : Text
  size : Nat
  executable : Bool

structure ChangesetContent where
  path : Text
  content : ByteArray
  executable : Bool

structure Changeset where
  upserts : List ChangesetUpsert
  contents : List ChangesetContent
  deletions : List Text
  skipped : List Skipped

section
variable (sha256Hex : ByteArray → Text)

def scan (w : WorkingCopy) : Found :=
  if w.lists then diffWalk sha256Hex [] w.entries else ⟨[], [.listing "_root_".toList]⟩

def current (w : WorkingCopy) : List TransferFileEntry :=
  ((scan sha256Hex w).files.filter fun f =>
    f.path ≠ BASELINE_SIDECAR_NAME && !isBuildArtifact f.path).mergeSort fun a b => a.path ≤ b.path

/-- The baseline as a hash map: the last entry of a path counts. -/
def baselineGet (baseline : List TransferFileEntry) (path : Text) : Option TransferFileEntry :=
  (baseline.filter fun f => !isDebugArtifact f.path && !isBuildArtifact f.path).reverse.find?
    (·.path = path)

def unchanged (baseline : List TransferFileEntry) (f : TransferFileEntry) : Bool :=
  (baselineGet baseline f.path).any fun b => b.sha256 = f.sha256 && b.size = f.size

def diffFiles (w : WorkingCopy) (baseline : List TransferFileEntry) :
    List TransferFileEntry →
      Except Text (List ChangesetUpsert × List ChangesetContent × List Skipped)
  | [] => .ok ([], [], [])
  | f :: rest =>
    if unchanged baseline f then diffFiles w baseline rest
    else match safeRelativePath f.path with
      | .error e => .error e
      | .ok t => match diffFiles w baseline rest with
        | .error e => .error e
        | .ok (upserts, contents, skipped) => match w.read t with
          | none => .ok (upserts, contents, .reading f.path :: skipped)
          | some data => .ok (⟨f.path, f.sha256, f.size, false⟩ :: upserts,
              ⟨f.path, data, false⟩ :: contents, skipped)

def diffTree (w : WorkingCopy) (baseline : List TransferFileEntry) : Except Text Changeset :=
  match diffFiles w baseline (current sha256Hex w) with
  | .error e => .error e
  | .ok (upserts, contents, skipped) => .ok
    { upserts := upserts
      contents := contents
      deletions := ((baseline.filter fun b =>
        !isDebugArtifact b.path && !isBuildArtifact b.path).filter fun b =>
          !(current sha256Hex w).any (·.path = b.path)).map (·.path)
      skipped := (scan sha256Hex w).skipped ++ skipped }
end

/-- The baseline with the changeset on top. -/
def applied (base : Text → Option ByteArray) (cs : Changeset) (path : Text) : Option ByteArray :=
  match cs.contents.find? (·.path = path) with
  | some c => some c.content
  | none => if path ∈ cs.deletions then none else base path

end NemesisBot.ExecWorkspace
