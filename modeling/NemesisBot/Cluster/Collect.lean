import NemesisBot.Cluster.ExecWorkspace
import NemesisBot.Lib.Bytes
import NemesisBot.Lib.JsonText

/-! The list of a directory's files that a transfer starts from, and its fingerprint. -/
namespace NemesisBot.Transfer
open Strings ExecWorkspace

/-- The fingerprint of a content, and what the system says when it fails. -/
structure Host where
  sha256Hex : ByteArray → Text
  injective : Function.Injective sha256Hex
  hex : ∀ data, '\n' ∉ sha256Hex data
  osError : Text

def entryNames : Entries → List Text
  | .nil => []
  | .file e _ _ _ rest | .dir e _ _ rest | .other e rest => e.name :: entryNames rest

/-- Within a directory each name is one entry's, and no name has a separator. -/
def Named : Entries → Prop
  | .nil => True
  | .file e _ _ _ rest | .other e rest =>
    (e.name ≠ [] ∧ '/' ∉ e.name ∧ e.name ∉ entryNames rest) ∧ Named rest
  | .dir e _ children rest =>
    (e.name ≠ [] ∧ '/' ∉ e.name ∧ e.name ∉ entryNames rest) ∧ Named children ∧ Named rest

/-- `exists` and `lists` are the root's own; `shown` is how the system prints it. -/
structure SourceTree where
  shown : Text
  there : Bool
  lists : Bool
  entries : Entries
  named : Named entries

/-- The relative path of the names on the way, with `/` for every backslash too. -/
def spelled (names : List Text) : Text := names.foldl normalized []

section
variable (env : Host)

/-- The checks that come before the kind of an entry matters. -/
def collectVisit (e : DirEntry) (shown path : Text)
    (found : Except Text (List TransferFileEntry)) : Except Text (List TransferFileEntry) :=
  if !e.listed then .ok []
  else if !e.utf8 then .error ("非 UTF-8 路径：".toList ++ shown)
  else if fenced path then .ok []
  else if !e.stat then .ok []
  else found

/-- `shown` is the directory as the system prints it, `dir` its path under the root. -/
def walk (shown dir : Text) : Entries → Except Text (List TransferFileEntry)
  | .nil => .ok []
  | .file e content opens _ rest => do
    let found ← collectVisit e (shown ++ '/' :: e.name) (normalized dir e.name)
      (if isNoiseFile (normalized dir e.name) then .ok []
      else if opens then .ok [fingerprint env.sha256Hex (normalized dir e.name) content]
      else .error ("打开 ".toList ++ shown ++ '/' :: e.name ++ ": ".toList ++ env.osError))
    let more ← walk shown dir rest
    .ok (found ++ more)
  | .dir e lists children rest => do
    let found ← collectVisit e (shown ++ '/' :: e.name) (normalized dir e.name)
      (if isNoiseDir (normalized dir e.name) then .ok []
      else if lists then walk (shown ++ '/' :: e.name) (normalized dir e.name) children
      else .error ("读目录 ".toList ++ shown ++ '/' :: e.name ++ ": ".toList ++ env.osError))
    let more ← walk shown dir rest
    .ok (found ++ more)
  | .other e rest => do
    let found ← collectVisit e (shown ++ '/' :: e.name) (normalized dir e.name) (.ok [])
    let more ← walk shown dir rest
    .ok (found ++ more)

def collectDirFiles (t : SourceTree) : Except Text (List TransferFileEntry) :=
  if !t.there then .ok []
  else if !t.lists then .error ("读目录 ".toList ++ t.shown ++ ": ".toList ++ env.osError)
  else (walk env t.shown [] t.entries).map fun files => files.mergeSort fun a b => a.path ≤ b.path

def hashLine (f : TransferFileEntry) : Text :=
  f.path ++ ':' :: (Nat.toDigits 10 f.size ++ ':' :: (f.sha256 ++ ['\n']))

def contentHash (files : List TransferFileEntry) : Text :=
  env.sha256Hex (String.ofList (files.flatMap hashLine)).toUTF8

end

/-- An entry that the scan goes into. -/
def passes (e : DirEntry) (path : Text) (noise : Text → Bool) : Bool :=
  e.listed && e.utf8 && !fenced path && e.stat && !noise path

/-- The files that the scan takes, by the names on the way to each. -/
def taken (at_ : List Text) : Entries → List (List Text × ByteArray)
  | .nil => []
  | .file e content _ _ rest =>
    (if passes e (spelled (at_ ++ [e.name])) isNoiseFile then [(at_ ++ [e.name], content)]
      else []) ++ taken at_ rest
  | .dir e _ children rest =>
    (if passes e (spelled (at_ ++ [e.name])) isNoiseDir then taken (at_ ++ [e.name]) children
      else []) ++ taken at_ rest
  | .other _ rest => taken at_ rest

def SourceTree.taken (t : SourceTree) : List (List Text × ByteArray) :=
  if t.there then Transfer.taken [] t.entries else []

/-- No two files that the scan takes differ only in a backslash for a separator. -/
def SourceTree.Untwinned (t : SourceTree) : Prop :=
  ∀ f ∈ t.taken, ∀ g ∈ t.taken, spelled f.1 = spelled g.1 → f.1 = g.1

variable {env : Host}

theorem spelled_concat (names : List Text) (name : Text) :
    spelled (names ++ [name]) = normalized (spelled names) name := by
  rw [spelled, List.foldl_append]
  rfl

theorem collectVisit_ok {e : DirEntry} {shown path : Text} {noise : Text → Bool}
    {inner : Except Text (List TransferFileEntry)} {found : List TransferFileEntry}
    (h : collectVisit e shown path (if noise path then .ok [] else inner) = .ok found) :
    passes e path noise = true ∧ inner = .ok found ∨ passes e path noise = false ∧ found = [] := by
  simp only [collectVisit] at h
  cases hl : e.listed with
  | false => simp_all [passes]
  | true =>
    cases hu : e.utf8 with
    | false => simp_all
    | true =>
      cases hf : fenced path with
      | true => simp_all [passes]
      | false =>
        cases hs : e.stat with
        | false => simp_all [passes]
        | true =>
          cases hn : noise path with
          | true => simp_all [passes]
          | false => simp_all [passes]

theorem both_ok {a b : Except Text (List TransferFileEntry)} {files : List TransferFileEntry}
    (h : (do let found ← a; let more ← b; .ok (found ++ more)) = .ok files) :
    ∃ found more, a = .ok found ∧ b = .ok more ∧ files = found ++ more := by
  obtain ⟨found, hfound, h⟩ := Bytes.bind_eq_ok.mp h
  obtain ⟨more, hmore, h⟩ := Bytes.bind_eq_ok.mp h
  exact ⟨found, more, hfound, hmore, (Except.ok.inj h).symm⟩

/-- What the scan lists are the files it takes, each under its spelled path. -/
theorem walk_eq {t : Entries} {shown : Text} {at_ : List Text} {files : List TransferFileEntry}
    (h : walk env shown (spelled at_) t = .ok files) :
    files = (taken at_ t).map fun f => fingerprint env.sha256Hex (spelled f.1) f.2 := by
  induction t generalizing shown at_ files with
  | nil =>
    obtain rfl := Except.ok.inj h
    rfl
  | file e content opens reads rest ih =>
    obtain ⟨found, more, hfound, hmore, rfl⟩ := both_ok h
    rw [← spelled_concat] at hfound
    rw [taken, List.map_append, ← ih hmore]
    obtain ⟨hp, hin⟩ | ⟨hp, rfl⟩ := collectVisit_ok hfound
    · rw [if_pos hp]
      split at hin
      · obtain rfl := Except.ok.inj hin
        rfl
      · cases hin
    · rw [hp, if_neg Bool.false_ne_true]
      rfl
  | dir e lists children rest ihc ih =>
    obtain ⟨found, more, hfound, hmore, rfl⟩ := both_ok h
    rw [← spelled_concat] at hfound
    rw [taken, List.map_append, ← ih hmore]
    obtain ⟨hp, hin⟩ | ⟨hp, rfl⟩ := collectVisit_ok hfound
    · rw [if_pos hp]
      split at hin
      · rw [← ihc hin]
      · cases hin
    · rw [hp, if_neg Bool.false_ne_true]
      rfl
  | other e rest ih =>
    obtain ⟨found, more, hfound, hmore, rfl⟩ := both_ok h
    have hnone : found = [] := by
      obtain ⟨-, hin⟩ | ⟨-, hin⟩ := @collectVisit_ok e _ _ (fun _ => false) (.ok []) found hfound
      · exact (Except.ok.inj hin).symm
      · exact hin
    rw [hnone, taken]
    exact ih hmore

/-- Every file taken lies under one of the names of its directory. -/
theorem mem_taken {t : Entries} {at_ : List Text} {f : List Text × ByteArray}
    (h : f ∈ taken at_ t) : ∃ name ∈ entryNames t, at_ ++ [name] <+: f.1 := by
  induction t generalizing at_ with
  | nil => cases h
  | file e content opens reads rest ih =>
    rw [taken, List.mem_append] at h
    cases h with
    | inl h =>
      split at h
      · rw [List.mem_singleton.mp h]
        exact ⟨e.name, List.mem_cons_self, List.prefix_rfl⟩
      · cases h
    | inr h =>
      obtain ⟨name, hname, hpre⟩ := ih h
      exact ⟨name, List.mem_cons_of_mem _ hname, hpre⟩
  | dir e lists children rest ihc ih =>
    rw [taken, List.mem_append] at h
    cases h with
    | inl h =>
      split at h
      · obtain ⟨name, -, hpre⟩ := ihc h
        exact ⟨e.name, List.mem_cons_self, (List.prefix_append _ [name]).trans hpre⟩
      · cases h
    | inr h =>
      obtain ⟨name, hname, hpre⟩ := ih h
      exact ⟨name, List.mem_cons_of_mem _ hname, hpre⟩
  | other e rest ih =>
    obtain ⟨name, hname, hpre⟩ := ih h
    exact ⟨name, List.mem_cons_of_mem _ hname, hpre⟩

/-- Below two names of one directory the ways differ. -/
theorem ne_of_under {at_ : List Text} {a b : Text} {p q : List Text} (hp : at_ ++ [a] <+: p)
    (hq : at_ ++ [b] <+: q) (hab : a ≠ b) : p ≠ q := by
  rintro rfl
  obtain ⟨x, rfl⟩ := hp
  obtain ⟨y, he⟩ := hq
  rw [List.append_assoc, List.append_assoc, List.append_cancel_left_eq] at he
  exact hab (List.cons.inj he).1.symm

theorem taken_append_nodup {at_ : List Text} {name : Text} {rest : Entries}
    {own : List (List Text × ByteArray)} (hown : (own.map Prod.fst).Nodup)
    (hunder : ∀ f ∈ own, at_ ++ [name] <+: f.1) (hname : name ∉ entryNames rest)
    (hrest : ((taken at_ rest).map Prod.fst).Nodup) :
    ((own ++ taken at_ rest).map Prod.fst).Nodup := by
  rw [List.map_append, List.nodup_append]
  refine ⟨hown, hrest, fun p hp q hq => ?_⟩
  obtain ⟨f, hf, rfl⟩ := List.mem_map.mp hp
  obtain ⟨g, hg, rfl⟩ := List.mem_map.mp hq
  obtain ⟨other, hother, hpre⟩ := mem_taken hg
  exact ne_of_under (hunder f hf) hpre fun he => hname (he ▸ hother)

theorem taken_nodup {t : Entries} (h : Named t) (at_ : List Text) :
    ((taken at_ t).map Prod.fst).Nodup := by
  induction t generalizing at_ with
  | nil => exact List.nodup_nil
  | file e content opens reads rest ih =>
    obtain ⟨⟨-, -, hname⟩, hrest⟩ := h
    refine taken_append_nodup ?_ ?_ hname (ih hrest at_)
    · split
      · exact List.nodup_singleton _
      · exact List.nodup_nil
    · intro f hf
      split at hf
      · rw [List.mem_singleton.mp hf]
      · cases hf
  | dir e lists children rest ihc ih =>
    obtain ⟨⟨-, -, hname⟩, hchildren, hrest⟩ := h
    refine taken_append_nodup ?_ ?_ hname (ih hrest at_)
    · split
      · exact ihc hchildren _
      · exact List.nodup_nil
    · intro f hf
      split at hf
      · obtain ⟨name, -, hpre⟩ := mem_taken hf
        exact (List.prefix_append _ [name]).trans hpre
      · cases hf
  | other e rest ih => exact ih h.2 at_

/-- Every file taken has passed the fence. -/
theorem fenced_of_mem_taken {t : Entries} {at_ : List Text} {f : List Text × ByteArray}
    (h : f ∈ taken at_ t) : fenced (spelled f.1) = false := by
  induction t generalizing at_ with
  | nil => cases h
  | file e content opens reads rest ih =>
    rw [taken, List.mem_append] at h
    cases h with
    | inl h =>
      split at h
      · rename_i hp
        rw [List.mem_singleton.mp h]
        simp only [passes, Bool.and_eq_true, Bool.not_eq_true'] at hp
        exact hp.1.1.2
      · cases h
    | inr h => exact ih h
  | dir e lists children rest ihc ih =>
    rw [taken, List.mem_append] at h
    cases h with
    | inl h =>
      split at h
      · exact ihc h
      · cases h
    | inr h => exact ih h
  | other e rest ih => exact ih h

theorem fenced_eq_false_iff {path : Text} :
    fenced path = false ↔ ∃ rel, safeRelativePath path = .ok rel := by
  rw [fenced]
  cases safeRelativePath path with
  | ok rel => simp
  | error e => simp

section
variable {t : SourceTree} {files : List TransferFileEntry}

theorem collectDirFiles_perm (h : collectDirFiles env t = .ok files) :
    files.Perm (t.taken.map fun f => fingerprint env.sha256Hex (spelled f.1) f.2) := by
  simp only [collectDirFiles] at h
  rw [SourceTree.taken]
  cases hthere : t.there with
  | false =>
    rw [hthere] at h
    obtain rfl := Except.ok.inj h
    exact List.Perm.refl _
  | true =>
    rw [hthere, Bool.not_true, if_neg Bool.false_ne_true] at h
    split at h
    · cases h
    · cases hwalk : walk env t.shown [] t.entries with
      | error e =>
        rw [hwalk] at h
        cases h
      | ok found =>
        rw [hwalk] at h
        obtain rfl := Except.ok.inj h
        rw [if_pos rfl, ← @walk_eq env t.entries t.shown [] found hwalk]
        exact List.mergeSort_perm _ _

theorem collected_paths (h : collectDirFiles env t = .ok files) :
    (files.map TransferFileEntry.path).Nodup ↔ t.Untwinned := by
  have hperm := (collectDirFiles_perm h).map TransferFileEntry.path
  have hnodup : (t.taken.map Prod.fst).Nodup := by
    rw [SourceTree.taken]
    split
    · exact taken_nodup t.named []
    · exact List.nodup_nil
  have hpaths : (t.taken.map fun f => fingerprint env.sha256Hex (spelled f.1) f.2).map
      TransferFileEntry.path = (t.taken.map Prod.fst).map spelled := by
    rw [List.map_map, List.map_map]
    rfl
  rw [hperm.nodup_iff, hpaths, List.nodup_map_iff_inj_on hnodup, SourceTree.Untwinned]
  simp only [List.forall_mem_map]

theorem collected_safe (h : collectDirFiles env t = .ok files) :
    ∀ f ∈ files, ∃ rel, safeRelativePath f.path = .ok rel := by
  intro f hf
  obtain ⟨g, hg, rfl⟩ := List.mem_map.mp ((collectDirFiles_perm h).mem_iff.mp hf)
  rw [SourceTree.taken] at hg
  split at hg
  · exact fenced_eq_false_iff.mp (fenced_of_mem_taken hg)
  · cases hg

theorem collected_hex (h : collectDirFiles env t = .ok files) :
    ∀ f ∈ files, '\n' ∉ f.sha256 := by
  intro f hf
  obtain ⟨g, -, rfl⟩ := List.mem_map.mp ((collectDirFiles_perm h).mem_iff.mp hf)
  exact env.hex g.2

end

theorem colon_of_safe {path rel : Text} (h : safeRelativePath path = .ok rel) : ':' ∉ path := by
  have htrim : ':' ∉ trim path := by
    simp only [safeRelativePath] at h
    split at h
    · cases h
    split at h
    · cases h
    split at h
    · cases h
    · assumption
  rw [← List.count_eq_zero] at htrim ⊢
  rw [← htrim, count_trim (by decide)]

/-- Two texts are cut at the first place of a character in the same way. -/
theorem cut_inj {c : Char} {a b x y : Text} (ha : c ∉ a) (hb : c ∉ b)
    (h : a ++ c :: x = b ++ c :: y) : a = b ∧ x = y := by
  have hwhile {s : Text} (hs : c ∉ s) (z : Text) : (s ++ c :: z).takeWhile (· ≠ c) = s := by
    have hall : ∀ d ∈ s, decide (d ≠ c) = true := by
      intro d hd
      refine decide_eq_true ?_
      rintro rfl
      exact hs hd
    rw [List.takeWhile_append_of_pos hall]
    simp
  have htake := congrArg (List.takeWhile (· ≠ c)) h
  rw [hwhile ha, hwhile hb] at htake
  rw [htake] at h
  exact ⟨htake, (List.cons.inj (List.append_cancel_left h)).2⟩

theorem hashLine_inj {f g : TransferFileEntry} {r r' : Text} (hf : ':' ∉ f.path)
    (hg : ':' ∉ g.path) (hf' : '\n' ∉ f.sha256) (hg' : '\n' ∉ g.sha256)
    (h : hashLine f ++ r = hashLine g ++ r') : f = g ∧ r = r' := by
  simp only [hashLine, List.append_assoc, List.cons_append] at h
  obtain ⟨hpath, h⟩ := cut_inj hf hg h
  obtain ⟨hsize, h⟩ := digits_inj (by decide) (by decide) h
  obtain ⟨hsha, h⟩ := cut_inj hf' hg' (List.cons.inj h).2
  refine ⟨?_, h⟩
  cases f
  cases g
  simp_all

theorem hashLines_inj {fs gs : List TransferFileEntry}
    (hf : ∀ f ∈ fs, ':' ∉ f.path ∧ '\n' ∉ f.sha256) (hg : ∀ g ∈ gs, ':' ∉ g.path ∧ '\n' ∉ g.sha256)
    (h : fs.flatMap hashLine = gs.flatMap hashLine) : fs = gs := by
  have hne (f : TransferFileEntry) (r : Text) : hashLine f ++ r ≠ [] := by simp [hashLine]
  induction fs generalizing gs with
  | nil =>
    cases gs with
    | nil => rfl
    | cons g gs =>
      rw [List.flatMap_cons] at h
      exact absurd h.symm (hne g _)
  | cons f fs ih =>
    cases gs with
    | nil =>
      rw [List.flatMap_cons] at h
      exact absurd h (hne f _)
    | cons g gs =>
      rw [List.flatMap_cons, List.flatMap_cons] at h
      obtain ⟨hf1, hfs⟩ := List.forall_mem_cons.mp hf
      obtain ⟨hg1, hgs⟩ := List.forall_mem_cons.mp hg
      obtain ⟨rfl, hrest⟩ := hashLine_inj hf1.1 hg1.1 hf1.2 hg1.2 h
      rw [ih hfs hgs hrest]

/-- Two collected lists with one fingerprint are the same list. -/
theorem contentHash_inj {t u : SourceTree} {fs gs : List TransferFileEntry}
    (hfs : collectDirFiles env t = .ok fs) (hgs : collectDirFiles env u = .ok gs)
    (h : contentHash env fs = contentHash env gs) : fs = gs := by
  have hlist := String.ofList_inj.mp (String.toByteArray_inj.mp (env.injective h))
  refine hashLines_inj (fun f hf => ⟨?_, collected_hex hfs f hf⟩)
    (fun g hg => ⟨?_, collected_hex hgs g hg⟩) hlist
  · obtain ⟨_, hrel⟩ := collected_safe hfs f hf
    exact colon_of_safe hrel
  · obtain ⟨_, hrel⟩ := collected_safe hgs g hg
    exact colon_of_safe hrel

end NemesisBot.Transfer
