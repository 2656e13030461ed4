import NemesisBot.Cluster.ExecWorkspace
import NemesisBot.Lib.Bytes
import NemesisBot.Lib.FileTree

/-! A changeset in its directory, as it is written and as it is read back. -/
namespace NemesisBot.ChangesetFiles
open Strings Transfer ExecWorkspace FileTree

def changesetVersion : Nat := 1

structure ChangesetManifest where
  version : Nat
  baseCommit : Text
  upserts : List ChangesetUpsert
  deletions : List Text
  skipped : List Text

/-- The directory: what `changeset.json` reads as, if it is there, and the tree `files`. -/
structure ChangesetDir where
  manifest : Option (Except Text ChangesetManifest)
  files : Tree Text ByteArray

/-- The fingerprint of a content, and what the system says when a file cannot be written or
read. -/
structure Env where
  sha256Hex : ByteArray → Text
  osError : Text

/-- The names on the way to the file of a fenced path; a directory is no file. -/
def landing (rel : Text) : Option (List Text) :=
  let last := (rel.splitOn '/').getLastD []
  if last = [] ∨ last = ['.'] ∨ '\x00' ∈ rel then none else some (components rel)

/-- A file or an impossible name stands where the parent directory has to be. -/
def parentFails (t : Tree Text ByteArray) (rel : Text) : Bool :=
  let parent := (components rel).dropLast
  decide (∃ q ∈ t.paths, q <+: parent) || parent.any fun name => '\x00' ∈ name

def mismatch (path : Text) : Text := "变更集文件 ".toList ++ path ++ " 指纹/大小与声明不符".toList

section
variable (env : Env)

/-- One round of the loop of `write_changeset`. -/
def writeFile (upsert : ChangesetUpsert) (content : ChangesetContent) (t : Tree Text ByteArray) :
    Except Text Unit × Tree Text ByteArray :=
  if upsert.path ≠ content.path then
    (.error ("变更集内容错位：声明 ".toList ++ upsert.path ++ " 实得 ".toList ++ content.path), t)
  else match safeRelativePath upsert.path with
    | .error e => (.error e, t)
    | .ok rel =>
      if parentFails t rel then
        (.error ("建 ".toList ++ upsert.path ++ " 父目录失败: ".toList ++ env.osError), t)
      else match (landing rel).bind fun dest => t.put dest content.content with
        | none =>
          (.error ("写变更集文件 ".toList ++ upsert.path ++ " 失败: ".toList ++ env.osError), t)
        | some t =>
          if env.sha256Hex content.content ≠ upsert.sha256 ∨ content.content.size ≠ upsert.size then
            (.error (mismatch upsert.path), t)
          else (.ok (), t)

def writeFiles : List (ChangesetUpsert × ChangesetContent) → Tree Text ByteArray →
    Except Text Unit × Tree Text ByteArray
  | [], t => (.ok (), t)
  | (upsert, content) :: rest, t => match writeFile env upsert content t with
    | (.error e, t) => (.error e, t)
    | (.ok _, t) => writeFiles rest t

/-- The directory afterwards stands beside the answer. -/
def writeChangeset (dir : ChangesetDir) (manifest : ChangesetManifest)
    (contents : List ChangesetContent) : Except Text Unit × ChangesetDir :=
  if manifest.version ≠ changesetVersion then
    (.error ("变更集版本非法（期望 ".toList ++ Nat.toDigits 10 changesetVersion ++ "）: ".toList ++
      Nat.toDigits 10 manifest.version), dir)
  else if manifest.upserts.length ≠ contents.length then
    (.error ("变更集声明 ".toList ++ Nat.toDigits 10 manifest.upserts.length ++
      " 条 upsert 与 ".toList ++ Nat.toDigits 10 contents.length ++ " 份内容不匹配".toList), dir)
  else match writeFiles env (manifest.upserts.zip contents) Tree.empty with
    | (.error e, t) => (.error e, ⟨none, t⟩)
    | (.ok _, t) => (.ok (), ⟨some (.ok manifest), t⟩)

/-- One round of the reading loop. -/
def readFile (t : Tree Text ByteArray) (u : ChangesetUpsert) : Except Text ChangesetContent := do
  let rel ← safeRelativePath u.path
  let data ← match (landing rel).bind t.find with
    | some data => .ok data
    | none => .error ("变更集文件 ".toList ++ u.path ++ " 缺失或不可读: ".toList ++ env.osError)
  if data.size ≠ u.size then
    .error ("变更集文件 ".toList ++ u.path ++ " 大小失配（声明 ".toList ++ Nat.toDigits 10 u.size ++
      " 实得 ".toList ++ Nat.toDigits 10 data.size ++ "）".toList)
  else if env.sha256Hex data ≠ u.sha256 then
    .error ("变更集文件 ".toList ++ u.path ++ " SHA-256 核验失败".toList)
  else .ok ⟨u.path, data, u.executable⟩

def readChangesetInner (dir : ChangesetDir) (raw : Except Text ChangesetManifest) :
    Except Text (ChangesetManifest × List ChangesetContent) := do
  let manifest ← raw.mapError fun e => "变更集清单解析失败: ".toList ++ e
  if manifest.version ≠ changesetVersion then
    .error ("变更集版本非法（本端支持 ".toList ++ Nat.toDigits 10 changesetVersion ++
      "）: ".toList ++ Nat.toDigits 10 manifest.version)
  else do
    let _ ← manifest.upserts.mapM fun u => safeRelativePath u.path
    let _ ← manifest.deletions.mapM safeRelativePath
    let contents ← manifest.upserts.mapM (readFile env dir.files)
    .ok (manifest, contents)

def readChangeset (dir : ChangesetDir) :
    Option (Except Text (ChangesetManifest × List ChangesetContent)) :=
  dir.manifest.map (readChangesetInner env dir)

/-- What is written is read back; what cannot be written leaves no manifest. -/
structure Inverse (dir : ChangesetDir) (manifest : ChangesetManifest)
    (contents : List ChangesetContent) : Prop where
  read : ∀ after, writeChangeset env dir manifest contents = (.ok (), after) →
    readChangeset env after = some (.ok (manifest, contents))
  refused : ∀ e after, writeChangeset env dir manifest contents = (.error e, after) →
    after.manifest = none ∧ readChangeset env after = none

/-- A declaration and its content fit together and have a place of their own. -/
structure Fits (pair : ChangesetUpsert × ChangesetContent) (dest : List Text) : Prop where
  path : pair.1.path = pair.2.path
  place : ∃ rel, safeRelativePath pair.1.path = .ok rel ∧ landing rel = some dest
  sha256 : env.sha256Hex pair.2.content = pair.1.sha256
  size : pair.2.content.size = pair.1.size

/-- The manifest and the contents that the writer can write. -/
structure Writable (manifest : ChangesetManifest) (contents : List ChangesetContent) : Prop where
  version : manifest.version = changesetVersion
  length : manifest.upserts.length = contents.length
  fits : ∀ pair ∈ manifest.upserts.zip contents, ∃ dest, Fits env pair dest
  apart : ∀ pair ∈ manifest.upserts.zip contents, ∀ other ∈ manifest.upserts.zip contents,
    ∀ p q, Fits env pair p → Fits env other q → p <+: q → p = q

/-- What the writer does not look at: the deletions, the flags of the contents, and whether two
declarations name one file. -/
structure Coherent (manifest : ChangesetManifest) (contents : List ChangesetContent) : Prop where
  deletions : ∀ d ∈ manifest.deletions, ∃ rel, safeRelativePath d = .ok rel
  flags : ∀ pair ∈ manifest.upserts.zip contents, pair.1.executable = pair.2.executable
  files : ∀ pair ∈ manifest.upserts.zip contents, ∀ other ∈ manifest.upserts.zip contents,
    ∀ dest, Fits env pair dest → Fits env other dest → pair.2.content = other.2.content

end

variable {env : Env} {t u : Tree Text ByteArray} {pair : ChangesetUpsert × ChangesetContent}

theorem landing_ne_nil {rel : Text} {dest : List Text} (h : landing rel = some dest) :
    dest ≠ [] := by
  simp only [landing] at h
  split at h
  · cases h
  · obtain rfl := Option.some.inj h
    have hne := List.splitOn_ne_nil '/' rel
    rw [components]
    cases hp : rel.splitOn '/' with
    | nil => exact absurd hp hne
    | cons first rest => exact List.cons_ne_nil _ _

/-- Where the file itself can be written, its directory can be. -/
theorem parentFails_of_free {rel : Text} {dest : List Text} (h : landing rel = some dest)
    (hfree : t.Free dest) : parentFails t rel = false := by
  have hne := landing_ne_nil h
  simp only [landing] at h
  split at h
  · cases h
  rename_i hok
  obtain rfl := Option.some.inj h
  have hnul : '\x00' ∉ rel := fun hm => hok (Or.inr (Or.inr hm))
  rw [parentFails, Bool.or_eq_false_iff]
  constructor
  · refine decide_eq_false ?_
    rintro ⟨q, hq, hpre⟩
    have heq := hfree.2 q hq (Or.inl (hpre.trans (List.dropLast_prefix _)))
    have hlen := hpre.length_le
    have hpos := List.length_pos_iff.mpr hne
    rw [heq, List.length_dropLast] at hlen
    omega
  · rw [List.any_eq_false]
    intro name hname hmem
    exact hnul (mem_of_mem_components (List.mem_of_mem_dropLast hname) (of_decide_eq_true hmem))

theorem fits_unique {p q : List Text} (hp : Fits env pair p) (hq : Fits env pair q) : p = q := by
  obtain ⟨rel, hrel, hland⟩ := hp.place
  obtain ⟨rel', hrel', hland'⟩ := hq.place
  obtain rfl : rel = rel' := Except.ok.inj (hrel.symm.trans hrel')
  exact Option.some.inj (hland.symm.trans hland')

/-- A round succeeds on a declaration that fits, where its file can be written. -/
theorem writeFile_ok_iff : writeFile env pair.1 pair.2 t = (.ok (), u) ↔
    ∃ dest, Fits env pair dest ∧ t.put dest pair.2.content = some u := by
  constructor
  · intro h
    simp only [writeFile] at h
    split at h
    · cases (Prod.mk.inj h).1
    rename_i hpath
    split at h
    · cases (Prod.mk.inj h).1
    rename_i rel hrel
    split at h
    · cases (Prod.mk.inj h).1
    split at h
    · cases (Prod.mk.inj h).1
    rename_i v hput
    obtain ⟨dest, hland, hput⟩ := Option.bind_eq_some_iff.mp hput
    split at h
    · cases (Prod.mk.inj h).1
    rename_i hsame
    push Not at hpath hsame
    obtain rfl := (Prod.mk.inj h).2
    exact ⟨dest, ⟨hpath, ⟨rel, hrel, hland⟩, hsame.1, hsame.2⟩, hput⟩
  · rintro ⟨dest, hfits, hput⟩
    obtain ⟨rel, hrel, hland⟩ := hfits.place
    have hfree : t.Free dest := put_isSome_iff.mp (by rw [hput]; rfl)
    have hsame : ¬ (env.sha256Hex pair.2.content ≠ pair.1.sha256 ∨
        pair.2.content.size ≠ pair.1.size) := by
      push Not
      exact ⟨hfits.sha256, hfits.size⟩
    simp only [writeFile, hrel, hland, Option.bind_some, hput, parentFails_of_free hland hfree]
    rw [if_neg (not_not_intro hfits.path), if_neg Bool.false_ne_true, if_neg hsame]

theorem writeFiles_ok_iff {pairs : List (ChangesetUpsert × ChangesetContent)} :
    writeFiles env pairs t = (.ok (), u) ↔ ∃ dests, List.Forall₂ (Fits env) pairs dests ∧
      t.putAll (dests.zip (pairs.map fun p => p.2.content)) = some u := by
  induction pairs generalizing t with
  | nil =>
    rw [writeFiles]
    constructor
    · intro h
      exact ⟨[], .nil, congrArg some (Prod.mk.inj h).2⟩
    · rintro ⟨_, ⟨⟩, h⟩
      rw [Option.some.inj h]
  | cons pair rest ih =>
    obtain ⟨upsert, content⟩ := pair
    have hround := @writeFile_ok_iff env t
    constructor
    · intro h
      rw [writeFiles] at h
      split at h
      · cases (Prod.mk.inj h).1
      · rename_i v hv
        obtain ⟨dest, hfits, hput⟩ := (@hround v (upsert, content)).mp hv
        obtain ⟨dests, hall, hrest⟩ := ih.mp h
        exact ⟨dest :: dests, .cons hfits hall, Option.bind_eq_some_iff.mpr ⟨v, hput, hrest⟩⟩
    · rintro ⟨_, hall, hput⟩
      cases hall with
      | cons hfits hall =>
        obtain ⟨v, hv, hrest⟩ := Option.bind_eq_some_iff.mp hput
        have hok := (@hround v (upsert, content)).mpr ⟨_, hfits, hv⟩
        rw [writeFiles, hok]
        exact ih.mpr ⟨_, hall, hrest⟩

section
variable {pairs : List (ChangesetUpsert × ChangesetContent)} {dests : List (List Text)}

theorem mem_writes_iff (h : List.Forall₂ (Fits env) pairs dests) {p : List Text} {b : ByteArray} :
    (p, b) ∈ dests.zip (pairs.map fun q => q.2.content) ↔
      ∃ pair ∈ pairs, Fits env pair p ∧ pair.2.content = b := by
  induction h with
  | nil => simp
  | @cons pair dest pairs dests hfits _ ih =>
    rw [List.map_cons, List.zip_cons_cons, List.mem_cons, ih, List.exists_mem_cons_iff]
    refine or_congr_left ?_
    constructor
    · intro he
      obtain ⟨rfl, rfl⟩ := Prod.mk.inj he
      exact ⟨hfits, rfl⟩
    · rintro ⟨hp, rfl⟩
      rw [fits_unique hp hfits]

theorem mem_dests_iff (h : List.Forall₂ (Fits env) pairs dests) {p : List Text} :
    p ∈ (dests.zip (pairs.map fun q => q.2.content)).map Prod.fst ↔
      ∃ pair ∈ pairs, Fits env pair p := by
  rw [List.mem_map]
  constructor
  · rintro ⟨w, hw, rfl⟩
    obtain ⟨pair, hpair, hfits, -⟩ := (mem_writes_iff h).mp hw
    exact ⟨pair, hpair, hfits⟩
  · rintro ⟨pair, hpair, hfits⟩
    exact ⟨(p, _), (mem_writes_iff h).mpr ⟨pair, hpair, hfits, rfl⟩, rfl⟩

theorem fits_of_mem (h : List.Forall₂ (Fits env) pairs dests) (hpair : pair ∈ pairs) :
    ∃ dest, Fits env pair dest := by
  induction h with
  | nil => cases hpair
  | cons hfits _ ih =>
    cases List.mem_cons.mp hpair with
    | inl he => exact ⟨_, he ▸ hfits⟩
    | inr hmem => exact ih hmem

theorem exists_dests (h : ∀ pair ∈ pairs, ∃ dest, Fits env pair dest) :
    ∃ dests, List.Forall₂ (Fits env) pairs dests := by
  induction pairs with
  | nil => exact ⟨[], .nil⟩
  | cons pair pairs ih =>
    obtain ⟨dest, hdest⟩ := h pair List.mem_cons_self
    obtain ⟨dests, hdests⟩ := ih fun q hq => h q (List.mem_cons_of_mem pair hq)
    exact ⟨dest :: dests, .cons hdest hdests⟩

/-- The loop gets through exactly where every pair fits and no name leads through another. -/
theorem writeFiles_isOk_iff : (∃ u, writeFiles env pairs Tree.empty = (.ok (), u)) ↔
    (∀ pair ∈ pairs, ∃ dest, Fits env pair dest) ∧ ∀ pair ∈ pairs, ∀ other ∈ pairs,
      ∀ p q, Fits env pair p → Fits env other q → p <+: q → p = q := by
  have hroot : [] ∉ (Tree.empty : Tree Text ByteArray).paths := List.not_mem_nil
  constructor
  · rintro ⟨u, hu⟩
    obtain ⟨dests, hall, hput⟩ := writeFiles_ok_iff.mp hu
    have hapart := (putAll_isSome_iff hroot).mp (Option.isSome_iff_exists.mpr ⟨u, hput⟩)
    refine ⟨fun pair hpair => ?_, fun pair hpair other hother p q hp hq => ?_⟩
    · exact fits_of_mem hall hpair
    · refine hapart.2 p (List.mem_append_left _ ?_) q (List.mem_append_left _ ?_)
      · exact (mem_dests_iff hall).mpr ⟨pair, hpair, hp⟩
      · exact (mem_dests_iff hall).mpr ⟨other, hother, hq⟩
  · rintro ⟨hfits, hapart⟩
    obtain ⟨dests, hall⟩ := exists_dests hfits
    have hsome : (Tree.empty.putAll (dests.zip (pairs.map fun q => q.2.content))).isSome = true := by
      refine (putAll_isSome_iff hroot).mpr ?_
      rw [show (Tree.empty : Tree Text ByteArray).paths = [] from rfl, List.append_nil]
      refine ⟨fun hnil => ?_, fun p hp q hq => ?_⟩
      · obtain ⟨pair, -, hfits⟩ := (mem_dests_iff hall).mp hnil
        obtain ⟨rel, -, hland⟩ := hfits.place
        exact landing_ne_nil hland rfl
      · obtain ⟨pair, hpair, hp⟩ := (mem_dests_iff hall).mp hp
        obtain ⟨other, hother, hq⟩ := (mem_dests_iff hall).mp hq
        exact hapart pair hpair other hother p q hp hq
    obtain ⟨u, hu⟩ := Option.isSome_iff_exists.mp hsome
    exact ⟨u, writeFiles_ok_iff.mpr ⟨dests, hall, hu⟩⟩

/-- Each place holds the content of some pair that belongs there. -/
theorem find_written (h : writeFiles env pairs Tree.empty = (.ok (), u)) (hpair : pair ∈ pairs)
    {dest : List Text} (hfits : Fits env pair dest) :
    ∃ other ∈ pairs, Fits env other dest ∧ u.find dest = some other.2.content := by
  obtain ⟨dests, hall, hput⟩ := writeFiles_ok_iff.mp h
  obtain ⟨b, hb, hfind⟩ := find_putAll_of_mem hput ((mem_dests_iff hall).mpr ⟨pair, hpair, hfits⟩)
  obtain ⟨other, hother, hof, rfl⟩ := (mem_writes_iff hall).mp hb
  exact ⟨other, hother, hof, hfind⟩

end

/-- Reading back one declaration that fits. -/
theorem readFile_fits {dest : List Text} (hfits : Fits env pair dest) :
    readFile env t pair.1 = .ok pair.2 ↔
      t.find dest = some pair.2.content ∧ pair.1.executable = pair.2.executable := by
  obtain ⟨⟨path, sha256, size, executable⟩, ⟨path', content, executable'⟩⟩ := pair
  obtain ⟨hpath, ⟨rel, hrel, hland⟩, hsha, hsize⟩ := hfits
  simp only at hpath hrel hsha hsize
  subst hpath hsha hsize
  rw [readFile, Bytes.bind_eq_ok]
  constructor
  · rintro ⟨rel', hrel', h⟩
    obtain rfl : rel = rel' := Except.ok.inj (hrel.symm.trans hrel')
    rw [hland, Option.bind_some] at h
    cases hfind : t.find dest with
    | none =>
      simp only [hfind] at h
      cases h
    | some data =>
      simp only [hfind] at h
      obtain ⟨-, h⟩ := Bytes.ite_error_eq_ok.mp h
      obtain ⟨-, h⟩ := Bytes.ite_error_eq_ok.mp h
      obtain ⟨-, rfl, rfl⟩ := ChangesetContent.mk.inj (Except.ok.inj h)
      exact ⟨rfl, rfl⟩
  · rintro ⟨hfind, hflag⟩
    simp only at hfind hflag
    subst hflag
    refine ⟨rel, hrel, ?_⟩
    simp only [hland, Option.bind_some, hfind]
    exact Bytes.ite_error_eq_ok.mpr ⟨not_not_intro rfl,
      Bytes.ite_error_eq_ok.mpr ⟨not_not_intro rfl, rfl⟩⟩

theorem mapM_isOk_iff {α β : Type} {f : α → Except Text β} {l : List α} :
    (∃ r, l.mapM f = .ok r) ↔ ∀ a ∈ l, ∃ b, f a = .ok b := by
  induction l with
  | nil => exact iff_of_true ⟨[], rfl⟩ fun a ha => (List.not_mem_nil ha).elim
  | cons a l ih =>
    rw [List.forall_mem_cons, ← ih]
    constructor
    · rintro ⟨_, h⟩
      cases Bytes.mapM_eq_ok.mp h with
      | cons hb hr => exact ⟨⟨_, hb⟩, _, Bytes.mapM_eq_ok.mpr hr⟩
    · rintro ⟨⟨b, hb⟩, r, hr⟩
      exact ⟨b :: r, Bytes.mapM_eq_ok.mpr (.cons hb (Bytes.mapM_eq_ok.mp hr))⟩

/-- What the reader makes of a directory whose manifest it accepts. -/
theorem readChangesetInner_ok {dir : ChangesetDir} {m : ChangesetManifest}
    {contents : List ChangesetContent} (hv : m.version = changesetVersion)
    (hl : m.upserts.length = contents.length)
    (hsafe : ∀ v ∈ m.upserts, ∃ rel, safeRelativePath v.path = .ok rel) :
    readChangesetInner env dir (.ok m) = .ok (m, contents) ↔
      (∀ d ∈ m.deletions, ∃ rel, safeRelativePath d = .ok rel) ∧
      ∀ pair ∈ m.upserts.zip contents, readFile env dir.files pair.1 = .ok pair.2 := by
  have hread : (∀ pair ∈ m.upserts.zip contents, readFile env dir.files pair.1 = .ok pair.2) ↔
      m.upserts.mapM (readFile env dir.files) = .ok contents := by
    rw [Bytes.mapM_eq_ok, List.forall₂_iff_zip]
    exact ⟨fun h => ⟨hl, fun {a b} hab => h (a, b) hab⟩, fun h pair hpair => h.2 hpair⟩
  rw [hread, ← mapM_isOk_iff]
  change (if m.version ≠ changesetVersion then _ else _) = _ ↔ _
  rw [if_neg (not_not_intro hv), Bytes.bind_eq_ok]
  constructor
  · rintro ⟨_, -, h⟩
    obtain ⟨r, hdel, h⟩ := Bytes.bind_eq_ok.mp h
    obtain ⟨c, hc, h⟩ := Bytes.bind_eq_ok.mp h
    obtain ⟨-, rfl⟩ := Prod.mk.inj (Except.ok.inj h)
    exact ⟨⟨r, hdel⟩, hc⟩
  · rintro ⟨⟨r, hdel⟩, hc⟩
    obtain ⟨rels, hrels⟩ := (mapM_isOk_iff (f := fun v : ChangesetUpsert =>
      safeRelativePath v.path)).mpr hsafe
    exact ⟨rels, hrels, Bytes.bind_eq_ok.mpr ⟨r, hdel, Bytes.bind_eq_ok.mpr ⟨contents, hc, rfl⟩⟩⟩

/-- The writer succeeds on what is writable, and leaves the manifest and the files there. -/
theorem writeChangeset_ok_iff {dir after : ChangesetDir} {m : ChangesetManifest}
    {contents : List ChangesetContent} :
    writeChangeset env dir m contents = (.ok (), after) ↔ m.version = changesetVersion ∧
      m.upserts.length = contents.length ∧ ∃ u, writeFiles env (m.upserts.zip contents) Tree.empty =
        (.ok (), u) ∧ after = ⟨some (.ok m), u⟩ := by
  simp only [writeChangeset]
  constructor
  · intro h
    split at h
    · cases (Prod.mk.inj h).1
    rename_i hv
    split at h
    · cases (Prod.mk.inj h).1
    rename_i hl
    split at h
    · cases (Prod.mk.inj h).1
    rename_i u hu
    exact ⟨not_not.mp hv, not_not.mp hl, u, hu, (Prod.mk.inj h).2.symm⟩
  · rintro ⟨hv, hl, u, hu, rfl⟩
    rw [if_neg (not_not_intro hv), if_neg (not_not_intro hl), hu]

theorem writable_iff {m : ChangesetManifest} {contents : List ChangesetContent} :
    Writable env m contents ↔ m.version = changesetVersion ∧ m.upserts.length = contents.length ∧
      ∃ u, writeFiles env (m.upserts.zip contents) Tree.empty = (.ok (), u) := by
  rw [writeFiles_isOk_iff]
  exact ⟨fun h => ⟨h.version, h.length, h.fits, h.apart⟩, fun h => ⟨h.1, h.2.1, h.2.2.1, h.2.2.2⟩⟩

/-- What has been written is read back as it was, where the pairs agree. -/
theorem read_written_iff {m : ChangesetManifest} {contents : List ChangesetContent}
    (hv : m.version = changesetVersion) (hl : m.upserts.length = contents.length)
    (hu : writeFiles env (m.upserts.zip contents) Tree.empty = (.ok (), u)) :
    readChangeset env ⟨some (.ok m), u⟩ = some (.ok (m, contents)) ↔ Coherent env m contents := by
  obtain ⟨hfits, -⟩ := writeFiles_isOk_iff.mp ⟨u, hu⟩
  have hsafe : ∀ v ∈ m.upserts, ∃ rel, safeRelativePath v.path = .ok rel := by
    intro v hmem
    obtain ⟨i, hi, rfl⟩ := List.mem_iff_getElem.mp hmem
    have hpair : (m.upserts[i], contents[i]) ∈ m.upserts.zip contents :=
      List.mem_iff_getElem.mpr ⟨i, by rw [List.length_zip]; omega, List.getElem_zip⟩
    obtain ⟨dest, hdest⟩ := hfits _ hpair
    obtain ⟨rel, hrel, -⟩ := hdest.place
    exact ⟨rel, hrel⟩
  rw [readChangeset, Option.map_some, Option.some.injEq, readChangesetInner_ok hv hl hsafe]
  constructor
  · rintro ⟨hdel, hread⟩
    have hback : ∀ pair ∈ m.upserts.zip contents, ∀ dest, Fits env pair dest →
        u.find dest = some pair.2.content ∧ pair.1.executable = pair.2.executable :=
      fun pair hpair dest hd => (readFile_fits hd).mp (hread pair hpair)
    refine ⟨hdel, fun pair hpair => ?_, fun pair hpair other hother dest hp ho => ?_⟩
    · obtain ⟨dest, hd⟩ := hfits pair hpair
      exact (hback pair hpair dest hd).2
    · have hfirst := (hback pair hpair dest hp).1
      rw [(hback other hother dest ho).1] at hfirst
      exact (Option.some.inj hfirst).symm
  · intro hc
    refine ⟨hc.deletions, fun pair hpair => ?_⟩
    obtain ⟨dest, hd⟩ := hfits pair hpair
    obtain ⟨other, hother, ho, hfind⟩ := find_written hu hpair hd
    refine (readFile_fits hd).mpr ⟨?_, hc.flags pair hpair⟩
    rw [hfind, hc.files pair hpair other hother dest hd ho]

/-- Any manifest with any contents, written into any directory. -/
theorem inverse_iff (env : Env) (dir : ChangesetDir) (m : ChangesetManifest)
    (contents : List ChangesetContent) : Inverse env dir m contents ↔
      (m.version = changesetVersion ∧ m.upserts.length = contents.length ∨ dir.manifest = none) ∧
      (Writable env m contents → Coherent env m contents) := by
  constructor
  · intro h
    refine ⟨?_, fun hw => ?_⟩
    · by_contra hno
      push Not at hno
      obtain ⟨hbad, hold⟩ := hno
      have hsame : ∃ e, writeChangeset env dir m contents = (.error e, dir) := by
        simp only [writeChangeset]
        by_cases hv : m.version = changesetVersion
        · rw [if_neg (not_not_intro hv), if_pos (hbad hv)]
          exact ⟨_, rfl⟩
        · rw [if_pos hv]
          exact ⟨_, rfl⟩
      obtain ⟨e, he⟩ := hsame
      exact hold (h.refused e dir he).1
    · obtain ⟨hv, hl, u, hu⟩ := writable_iff.mp hw
      exact (read_written_iff hv hl hu).mp
        (h.read _ (writeChangeset_ok_iff.mpr ⟨hv, hl, u, hu, rfl⟩))
  · rintro ⟨hold, hc⟩
    refine ⟨fun after h => ?_, fun e after h => ?_⟩
    · obtain ⟨hv, hl, u, hu, rfl⟩ := writeChangeset_ok_iff.mp h
      exact (read_written_iff hv hl hu).mpr (hc (writable_iff.mpr ⟨hv, hl, u, hu⟩))
    · have hnone : after.manifest = none := by
        simp only [writeChangeset] at h
        split at h
        · rename_i hv
          rw [← (Prod.mk.inj h).2]
          exact hold.resolve_left fun hok => hv hok.1
        split at h
        · rename_i hl
          rw [← (Prod.mk.inj h).2]
          exact hold.resolve_left fun hok => hl hok.2
        split at h
        · rw [← (Prod.mk.inj h).2]
        · cases (Prod.mk.inj h).1
      exact ⟨hnone, by rw [readChangeset, hnone]; rfl⟩

def upward : ChangesetManifest := ⟨changesetVersion, [], [], ["../x".toList], []⟩

/-- A deletion that leads out is written and then refused. -/
theorem inverse_not : ¬ Inverse ⟨fun _ => [], []⟩ ⟨none, Tree.empty⟩ upward [] := by
  intro h
  have hread := h.read ⟨some (.ok upward), Tree.empty⟩ rfl
  obtain ⟨_, hok⟩ := ((read_written_iff rfl rfl rfl).mp hread).deletions _ List.mem_cons_self
  have hbad : (safeRelativePath "../x".toList).toOption = none := by decide +kernel
  rw [hok] at hbad
  cases hbad

end NemesisBot.ChangesetFiles
