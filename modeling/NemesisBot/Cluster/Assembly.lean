import NemesisBot.Cluster.ChunkPlan
import NemesisBot.Cluster.Collect
import NemesisBot.Lib.FileTree
import NemesisBot.Utils.Sanitize

/-! The end of a transfer: the chunks are put together under the staging directory, every file is
checked, and the whole is renamed into the inbox. Paths are resolved from the root of the file
system. -/
namespace NemesisBot.Transfer
open Strings FileTree ExecWorkspace

abbrev Files : Type := Tree Text ByteArray

def resolve : List Text → List Text → List Text
  | base, [] => base
  | base, piece :: rest =>
    if piece = [] ∨ piece = ['.'] then resolve base rest
    else if piece = ['.', '.'] then resolve base.dropLast rest
    else resolve (base ++ [piece]) rest

/-- `Path::join`, as the system resolves it. -/
def joined (base : List Text) (rel : Text) : List Text :=
  resolve (if rel.head? = some '/' then [] else base) (rel.splitOn '/')

/-- A path that ends in a separator or in dots is no file's. -/
def namesFile (rel : Text) : Bool :=
  (rel.splitOn '/').getLastD [] ∉ [[], ['.'], ['.', '.']] && '\x00' ∉ rel

def findFile (fs : Files) (base : List Text) (rel : Text) : Option ByteArray :=
  if namesFile rel then fs.find (joined base rel) else none

def putFile (fs : Files) (base : List Text) (rel : Text) (change : ByteArray → ByteArray) :
    Option Files :=
  if namesFile rel then
    fs.put (joined base rel) (change ((fs.find (joined base rel)).getD ByteArray.empty))
  else none

/-- A file or an impossible name stands where a directory has to be. -/
def dirFails (fs : Files) (dir : List Text) : Bool :=
  decide (∃ q ∈ fs.paths, q <+: dir) || dir.any fun name => '\x00' ∈ name

/-- Written at an offset into what stands there; a gap is filled with zeros. -/
def writeAt (off : Nat) (data old : ByteArray) : ByteArray :=
  let bytes := old.data.toList
  ⟨(bytes.take off ++ List.replicate (off - bytes.length) 0 ++ data.data.toList ++
    bytes.drop (off + data.size)).toArray⟩

def display (path : List Text) : Text := '/' :: join ['/'] path

def chunkName (seq : Nat) : Text :=
  let digits := decimal seq
  "chunk_".toList ++ List.replicate (6 - digits.length) '0' ++ digits ++ ".bin".toList

def sanitizeTransferId (id : Text) : Text :=
  if id = [] then "transfer".toList else Sanitize.sanitizePathSegment id

def safeTaskFileName (taskId : Text) : Text := Sanitize.sanitizePathSegment taskId

def stagingDir (inboxRoot : List Text) (transferId : Text) : List Text :=
  joined (joined inboxRoot ".staging".toList) (sanitizeTransferId transferId)

def inboxDir (inboxRoot : List Text) (taskId : Text) : List Text :=
  joined inboxRoot (safeTaskFileName taskId)

section
variable (env : Host) (root : List Text)

/-- The file of an entry is changed, with the directory on the way to it. -/
def writeEntry (f : TransferFileEntry) (failure : Text → Text) (change : ByteArray → ByteArray)
    (fs : Files) : Except Text Files := do
  let rel ← safeRelativePath f.path
  if dirFails fs (joined root rel).dropLast then
    .error ("创建目录 ".toList ++ display (joined root rel).dropLast ++ ": ".toList ++ env.osError)
  else match putFile fs root rel change with
    | some fs => .ok fs
    | none => .error (failure rel ++ ": ".toList ++ env.osError)

def createEmpty : List TransferFileEntry → Files → Except Text Files
  | [], fs => .ok fs
  | f :: rest, fs =>
    if f.size = 0 then do
      let fs ← writeEntry env root f (fun _ => "创建空文件 ".toList ++ f.path)
        (fun _ => ByteArray.empty) fs
      createEmpty rest fs
    else createEmpty rest fs

/-- The chunks from number `seq` on; `none` is an index out of bounds. -/
def writeChunks (st : List Text) (files : List TransferFileEntry) :
    Nat → List Chunk → Files → Option (Except Text Files)
  | _, [], fs => some (.ok fs)
  | seq, c :: rest, fs => match findFile fs st (chunkName seq) with
    | none => some (.error ("staging 块 ".toList ++ decimal seq ++ " 缺失或不可读: ".toList ++
        env.osError))
    | some data =>
      if data.size ≠ c.len then
        some (.error ("块 ".toList ++ decimal seq ++ " 长度 ".toList ++ decimal data.size ++
          " ≠ 计划 ".toList ++ decimal c.len))
      else files[c.file]?.bind fun f =>
        match writeEntry env root f (fun rel => "打开 ".toList ++ display root ++ '/' :: rel)
            (writeAt c.offset data) fs with
        | .error e => some (.error e)
        | .ok fs => writeChunks st files (seq + 1) rest fs

def verifyFiles (fs : Files) : List TransferFileEntry → Except Text Unit
  | [] => .ok ()
  | f :: rest => do
    let rel ← safeRelativePath f.path
    match findFile fs root rel with
    | none => .error ("组装后读 ".toList ++ f.path ++ " 失败: 打开 ".toList ++ display root ++
        '/' :: rel ++ ": ".toList ++ env.osError)
    | some data =>
      if data.size ≠ f.size then
        .error ("文件 ".toList ++ f.path ++ " 长度 ".toList ++ decimal data.size ++
          " ≠ manifest ".toList ++ decimal f.size)
      else if env.sha256Hex data ≠ f.sha256 then
        .error ("文件 ".toList ++ f.path ++ " SHA-256 核验失败（期望 ".toList ++ f.sha256 ++
          " 实得 ".toList ++ env.sha256Hex data ++ "）".toList)
      else verifyFiles fs rest

end

/-- `end` from the staged manifest on, up to the rename; the receipts come after it. -/
def endTransfer (env : Host) (inboxRoot : List Text) (transferId : Text)
    (staged : Option TransferBegin) (fs : Files) : Option (Except Text Files) :=
  match staged with
  | none => some (.error ("staging manifest 缺失（transfer ".toList ++ transferId ++ "）".toList))
  | some begin =>
    let st := stagingDir inboxRoot transferId
    let out := joined st "out".toList
    let filesRoot := joined out "files".toList
    let fs := fs.prune out
    if dirFails fs filesRoot then some (.error ("创建 out 失败: ".toList ++ env.osError))
    else (planChunks begin.files begin.chunkSize).bind fun plan =>
      match createEmpty env filesRoot begin.files fs with
      | .error e => some (.error e)
      | .ok fs => (writeChunks env filesRoot st begin.files 0 plan fs).map fun written => do
        let fs ← written
        verifyFiles env filesRoot fs begin.files
        let landed := inboxDir inboxRoot begin.taskId
        if landed ∈ fs.paths then .error ("清理旧收件目录失败: ".toList ++ env.osError)
        else match (fs.prune landed).move out landed with
          | none => .error ("落地失败: rename ".toList ++ env.osError ++ " / copy ".toList ++
              env.osError)
          | some fs => .ok fs

/-! Where a path leads. -/

def kept (piece : Text) : Bool := piece ≠ [] && piece ≠ ['.']

/-- The names on the way, without the pieces that lead nowhere. -/
def names (path : Text) : List Text := (path.splitOn '/').filter kept

theorem resolve_eq {base pieces : List Text} (h : ['.', '.'] ∉ pieces) :
    resolve base pieces = base ++ pieces.filter kept := by
  induction pieces generalizing base with
  | nil => rw [resolve, List.filter_nil, List.append_nil]
  | cons piece pieces ih =>
    obtain ⟨hne, hrest⟩ := List.ne_and_not_mem_of_not_mem_cons h
    rw [resolve]
    split
    · rename_i hskip
      have hkept : kept piece = false := by
        rw [kept]
        rcases hskip with rfl | rfl <;> rfl
      rw [List.filter_cons_of_neg (by rw [hkept]; decide), ih hrest]
    · rename_i hkeep
      push Not at hkeep
      have hkept : kept piece = true := by simp [kept, hkeep.1, hkeep.2]
      rw [if_neg (Ne.symm hne), List.filter_cons_of_pos hkept, ih hrest, List.append_assoc]
      rfl

theorem joined_eq {path : Text} (base : List Text) (habs : path.head? ≠ some '/')
    (hup : ['.', '.'] ∉ path.splitOn '/') : joined base path = base ++ names path := by
  rw [joined, if_neg habs, resolve_eq hup, names]

theorem joined_name {name : Text} (base : List Text) (hsep : '/' ∉ name)
    (hne : name ∉ [[], ['.'], ['.', '.']]) : joined base name = base ++ [name] := by
  simp only [List.mem_cons, List.not_mem_nil, or_false, not_or] at hne
  have hsplit : name.splitOn '/' = [name] := List.splitOn_eq_singleton hsep
  have hhead : name.head? ≠ some '/' := fun h => hsep (List.mem_of_mem_head? h)
  rw [joined_eq base hhead, names, hsplit]
  · simp [kept, hne.1, hne.2.1]
  · rw [hsplit, List.mem_singleton]
    exact Ne.symm hne.2.2

/-- What is put in front of a path without a separator belongs to its first piece. -/
theorem split_first {before : Text} (hb : '/' ∉ before) (path : Text) :
    ∃ first rest, path.splitOn '/' = first :: rest ∧
      (before ++ path).splitOn '/' = (before ++ first) :: rest := by
  by_cases hp : '/' ∈ path
  · obtain ⟨first, rest, rfl, hfirst⟩ := List.eq_append_cons_of_mem hp
    refine ⟨first, rest.splitOn '/', List.splitOn_append_cons_self_of_not_mem hfirst rest, ?_⟩
    rw [← List.append_assoc]
    refine List.splitOn_append_cons_self_of_not_mem ?_ rest
    rw [List.mem_append, not_or]
    exact ⟨hb, hfirst⟩
  · refine ⟨path, [], List.splitOn_eq_singleton hp, List.splitOn_eq_singleton ?_⟩
    rw [List.mem_append, not_or]
    exact ⟨hb, hp⟩

/-- What follows a path without a separator belongs to its last piece. -/
theorem split_last {after : Text} (ha : '/' ∉ after) (path : Text) :
    ∃ init last, path.splitOn '/' = init ++ [last] ∧
      (path ++ after).splitOn '/' = init ++ [last ++ after] := by
  by_cases hp : '/' ∈ path
  · obtain ⟨last, init, hrev, hlast⟩ := List.eq_append_cons_of_mem (List.mem_reverse.mpr hp)
    have hpath : path = init.reverse ++ '/' :: last.reverse := by
      rw [← List.reverse_reverse path, hrev]
      simp
    have hlast : '/' ∉ last.reverse := fun h => hlast (List.mem_reverse.mp h)
    refine ⟨init.reverse.splitOn '/', last.reverse, ?_, ?_⟩
    · rw [hpath, List.splitOn_append_cons_self, List.splitOn_eq_singleton hlast]
    · have hboth : '/' ∉ last.reverse ++ after := by
        rw [List.mem_append, not_or]
        exact ⟨hlast, ha⟩
      rw [hpath, List.append_assoc, List.cons_append, List.splitOn_append_cons_self,
        List.splitOn_eq_singleton hboth]
  · refine ⟨[], path, List.splitOn_eq_singleton hp, List.splitOn_eq_singleton ?_⟩
    rw [List.mem_append, not_or]
    exact ⟨hp, ha⟩

/-- What the fence says of a path that it lets through. -/
theorem safe_pieces {path rel : Text} (h : safeRelativePath path = .ok rel) :
    rel = trim path ∧ rel ≠ [] ∧ rel.head? ≠ some '/' ∧ ['.', '.'] ∉ rel.splitOn '/' ∧
      (rel.splitOn '/').head? ≠ some ['.'] := by
  obtain rfl := safeRelativePath_ok h
  simp only [safeRelativePath] at h
  split at h
  · cases h
  rename_i hne
  split at h
  · cases h
  split at h
  · cases h
  split at h
  · cases h
  rename_i habs
  split at h
  · cases h
  rename_i hcomp
  have hclear := List.findSome?_eq_none_iff.mp hcomp
  have hdots {piece : Text} (hp : piece = ['.'] ∨ piece = ['.', '.']) :
      piece ∉ components (trim path) := by
    intro hmem
    have hnone := hclear piece hmem
    rw [componentError, if_pos hp] at hnone
    cases hnone
  refine ⟨rfl, hne, habs, fun hmem => hdots (Or.inr rfl) ?_, fun hhead => hdots (Or.inl rfl) ?_⟩
  · rw [components]
    cases hs : (trim path).splitOn '/' with
    | nil => exact absurd hs (List.splitOn_ne_nil '/' _)
    | cons first rest =>
      rw [hs] at hmem
      cases List.mem_cons.mp hmem with
      | inl he => exact he ▸ List.mem_cons_self
      | inr hmem => exact List.mem_cons_of_mem _ (List.mem_filter.mpr ⟨hmem, by decide⟩)
  · rw [components]
    cases hs : (trim path).splitOn '/' with
    | nil => exact absurd hs (List.splitOn_ne_nil '/' _)
    | cons first rest =>
      rw [hs, List.head?_cons] at hhead
      rw [Option.some.inj hhead]
      exact List.mem_cons_self

theorem not_sep_of_blank {w : Text} (h : ∀ c ∈ w, isWhitespace c = true) : '/' ∉ w :=
  fun hm => absurd (h _ hm) (by decide)

/-- The path as it was declared has the pieces that the fence has seen, but for its ends. -/
theorem declared_pieces {path rel : Text} (h : safeRelativePath path = .ok rel) :
    path.head? ≠ some '/' ∧ ['.', '.'] ∉ path.splitOn '/' := by
  obtain ⟨rfl, hne, habs, hup, -⟩ := safe_pieces h
  obtain ⟨before, after, he, hb, ha⟩ := trim_split path
  generalize trim path = rel at *
  subst he
  constructor
  · intro hhead
    cases before with
    | nil =>
      cases rel with
      | nil => exact hne rfl
      | cons c rel => exact habs hhead
    | cons c before =>
      have hc : c = '/' := Option.some.inj hhead
      exact absurd (hb c List.mem_cons_self) (by rw [hc]; decide)
  · obtain ⟨first, rest, hrel, hfront⟩ := split_first (not_sep_of_blank hb) rel
    obtain ⟨init, last, hmid, hall⟩ := split_last (not_sep_of_blank ha) (before ++ rel)
    have hupfront : ['.', '.'] ∉ (before ++ rel).splitOn '/' := by
      rw [hfront]
      rw [hrel] at hup
      intro hmem
      cases List.mem_cons.mp hmem with
      | inr hmem => exact hup (List.mem_cons_of_mem _ hmem)
      | inl he =>
        cases before with
        | nil => exact hup (he ▸ List.mem_cons_self)
        | cons c before =>
          have hc : '.' = c := (List.cons.inj he).1
          exact absurd (hb c List.mem_cons_self) (by rw [← hc]; decide)
    rw [hall]
    rw [hmid] at hupfront
    intro hmem
    cases List.mem_append.mp hmem with
    | inl hmem => exact hupfront (List.mem_append_left _ hmem)
    | inr hmem =>
      have he := List.mem_singleton.mp hmem
      cases after using List.reverseRecOn with
      | nil =>
        rw [List.append_nil] at he
        exact hupfront (List.mem_append_right _ (he ▸ List.mem_singleton_self _))
      | append_singleton after c =>
        rw [← List.append_assoc] at he
        have hc : '.' = c := (@List.append_inj_right' Char ['.'] _ _ _ he rfl) |> List.singleton_inj.mp
        exact absurd (ha c (List.mem_append_right _ (List.mem_singleton_self c)))
          (by rw [← hc]; decide)

theorem names_head {c : Char} {s : Text} (hc : c ≠ '/')
    (hdot : ((c :: s).splitOn '/').head? ≠ some ['.']) :
    ∃ f, (names (c :: s)).head? = some (c :: f) := by
  obtain ⟨first, rest, -, hall⟩ := @split_first [c] (by simpa using hc.symm) s
  rw [List.singleton_append, List.singleton_append] at hall
  rw [hall, List.head?_cons, ne_eq, Option.some.injEq] at hdot
  have hkept : kept (c :: first) = true := by
    rw [kept, decide_eq_true (List.cons_ne_nil c first), decide_eq_true hdot]
    rfl
  refine ⟨first, ?_⟩
  rw [names, hall, List.filter_cons_of_pos hkept, List.head?_cons]

theorem names_last {c : Char} {s : Text} (hc : c ≠ '/')
    (hdot : ((s ++ [c]).splitOn '/').getLast? ≠ some ['.']) :
    ∃ l, (names (s ++ [c])).getLast? = some (l ++ [c]) := by
  obtain ⟨init, last, -, hall⟩ := @split_last [c] (by simpa using hc.symm) s
  rw [hall, List.getLast?_concat, ne_eq, Option.some.injEq] at hdot
  have hkept : kept (last ++ [c]) = true := by simp [kept, hdot]
  refine ⟨last, ?_⟩
  rw [names, hall, List.filter_append, List.filter_singleton, hkept]
  simp

theorem last_of_trim {s r : Text} {c : Char} (h : trim s = r ++ [c]) : isWhitespace c = false := by
  by_contra hws
  have hagain := congrArg List.length (trimEnd_trimEnd (trimStart s))
  rw [← trim, h, trimEnd, List.reverse_append, List.reverse_singleton, List.singleton_append,
    List.dropWhile_cons_of_pos (by simpa using hws), List.length_reverse] at hagain
  have hlen := (List.dropWhile_suffix (l := r.reverse) isWhitespace).length_le
  simp only [List.length_append, List.length_reverse, List.length_singleton] at hagain hlen
  omega

/-- A declared path that leads where a fenced one leads has no blanks around it. -/
theorem trim_eq_of_names {path other rel' : Text} (h' : safeRelativePath other = .ok rel')
    (hfile : namesFile rel' = true) (he : names path = names rel') : trim path = path := by
  obtain ⟨hrel', hne', habs', -, hdot'⟩ := safe_pieces h'
  obtain ⟨before, after, hsplit, hb, ha⟩ := trim_split path
  have hblank {c : Char} (hc : isWhitespace c = true) : c ≠ '/' ∧ c ≠ '.' :=
    ⟨by rintro rfl; exact absurd hc (by decide), by rintro rfl; exact absurd hc (by decide)⟩
  cases before with
  | cons c before =>
    have hc := hb c List.mem_cons_self
    rw [hsplit, List.cons_append, List.cons_append] at he
    obtain ⟨f, hf⟩ := names_head (s := before ++ trim path ++ after) (hblank hc).1 fun hhead => by
      obtain ⟨first, rest, -, hall⟩ := @split_first [c]
        (by simpa using (hblank hc).1.symm) (before ++ trim path ++ after)
      rw [List.singleton_append] at hall
      rw [hall, List.head?_cons, Option.some.injEq, List.singleton_append] at hhead
      exact (hblank hc).2 (List.cons.inj hhead).1
    cases rel' with
    | nil => exact absurd rfl hne'
    | cons d rel' =>
      have hd : d ≠ '/' := fun hd => habs' (by rw [hd, List.head?_cons])
      obtain ⟨g, hg⟩ := names_head hd hdot'
      rw [he, hg, Option.some.injEq] at hf
      rw [← (List.cons.inj hf).1, head_of_trim hrel'.symm] at hc
      cases hc
  | nil =>
    cases after using List.reverseRecOn with
    | nil => simpa using hsplit.symm
    | append_singleton after c =>
      have hc := ha c (List.mem_append_right _ (List.mem_singleton_self c))
      rw [hsplit, List.nil_append, ← List.append_assoc] at he
      obtain ⟨l, hl⟩ := names_last (s := trim path ++ after) (hblank hc).1 fun hlast => by
        obtain ⟨init, last, -, hall⟩ := @split_last [c]
          (by simpa using (hblank hc).1.symm) (trim path ++ after)
        rw [hall, List.getLast?_concat, Option.some.injEq] at hlast
        have hdots := @List.append_inj_right' Char last _ [] _ hlast rfl
        exact (hblank hc).2 (List.singleton_inj.mp hdots)
      cases rel' using List.reverseRecOn with
      | nil => exact absurd rfl hne'
      | append_singleton rel' d =>
        simp only [namesFile, Bool.and_eq_true, decide_eq_true_eq, List.mem_cons, List.not_mem_nil,
          or_false, not_or] at hfile
        have hd : d ≠ '/' := by
          rintro rfl
          rw [List.splitOn_append_cons_self] at hfile
          simp at hfile
        obtain ⟨m, hm⟩ := names_last (s := rel') hd fun hlast => by
          rw [List.getLastD_eq_getLast?, hlast] at hfile
          exact hfile.1.2.1 rfl
        rw [he, hm, Option.some.injEq] at hl
        have hlast := List.singleton_inj.mp (List.append_inj_right' hl rfl)
        rw [← hlast, last_of_trim hrel'.symm] at hc
        cases hc

/-! What the assembly writes. -/

/-- A file of the transfer, by the place it is written to. -/
def IsPlace (root : List Text) (f : TransferFileEntry) (p : List Text) : Prop :=
  ∃ rel, safeRelativePath f.path = .ok rel ∧ namesFile rel = true ∧ joined root rel = p

/-- Only places of the files change, and these lie below the root. -/
structure Assembled (root : List Text) (files : List TransferFileEntry) (fs fs' : Files) :
    Prop where
  outside : ∀ p, ¬ root <+: p → fs'.find p = fs.find p
  placed : ∀ p ∈ fs'.paths, p ∈ fs.paths ∨ ∃ f ∈ files, IsPlace root f p

theorem joined_safe {path rel : Text} (root : List Text) (h : safeRelativePath path = .ok rel) :
    joined root rel = root ++ names rel := by
  obtain ⟨-, -, habs, hup, -⟩ := safe_pieces h
  exact joined_eq root habs hup

theorem joined_declared {path rel : Text} (root : List Text) (h : safeRelativePath path = .ok rel) :
    joined root path = root ++ names path := by
  obtain ⟨habs, hup⟩ := declared_pieces h
  exact joined_eq root habs hup

section
variable {root : List Text} {files : List TransferFileEntry} {fs fs' : Files}

theorem Assembled.refl : Assembled root files fs fs := ⟨fun _ _ => rfl, fun _ hp => Or.inl hp⟩

theorem Assembled.trans {mid : Files} (h : Assembled root files fs mid)
    (h' : Assembled root files mid fs') : Assembled root files fs fs' := by
  refine ⟨fun p hp => (h'.outside p hp).trans (h.outside p hp), fun p hp => ?_⟩
  cases h'.placed p hp with
  | inl hmid => exact h.placed p hmid
  | inr hnew => exact Or.inr hnew

theorem writeEntry_assembled {f : TransferFileEntry} {failure : Text → Text}
    {change : ByteArray → ByteArray} (hf : f ∈ files)
    (h : writeEntry env root f failure change fs = .ok fs') : Assembled root files fs fs' := by
  obtain ⟨rel, hrel, h⟩ := Bytes.bind_eq_ok.mp h
  obtain ⟨-, h⟩ := Bytes.ite_error_eq_ok.mp h
  split at h
  · rename_i v hput
    obtain rfl := Except.ok.inj h
    rw [putFile] at hput
    split at hput
    · rename_i hfile
      refine ⟨fun p hp => ?_, fun p hp => ?_⟩
      · have hne : p ≠ joined root rel := by
          rintro rfl
          exact hp (joined_safe root hrel ▸ List.prefix_append _ _)
        rw [find_put hput, if_neg hne]
      · cases (mem_paths_put hput).mp hp with
        | inl he => exact Or.inr ⟨f, hf, rel, hrel, hfile, he.symm⟩
        | inr hold => exact Or.inl hold
    · cases hput
  · cases h

theorem createEmpty_assembled {todo : List TransferFileEntry} (hsub : ∀ f ∈ todo, f ∈ files)
    (h : createEmpty env root todo fs = .ok fs') : Assembled root files fs fs' := by
  induction todo generalizing fs with
  | nil =>
    obtain rfl := Except.ok.inj h
    exact .refl
  | cons f rest ih =>
    obtain ⟨hf, hrest⟩ := List.forall_mem_cons.mp hsub
    rw [createEmpty] at h
    split at h
    · obtain ⟨mid, hmid, h⟩ := Bytes.bind_eq_ok.mp h
      exact (writeEntry_assembled hf hmid).trans (ih hrest h)
    · exact ih hrest h

theorem writeChunks_assembled {st : List Text} {plan : List Chunk} {seq : Nat}
    (h : writeChunks env root st files seq plan fs = some (.ok fs')) :
    Assembled root files fs fs' := by
  induction plan generalizing seq fs with
  | nil =>
    obtain rfl := Except.ok.inj (Option.some.inj h)
    exact .refl
  | cons c rest ih =>
    rw [writeChunks] at h
    split at h
    · cases h
    · split at h
      · cases h
      · obtain ⟨f, hf, h⟩ := Option.bind_eq_some_iff.mp h
        split at h
        · cases h
        · rename_i mid hmid
          exact (writeEntry_assembled (List.mem_of_getElem? hf) hmid).trans (ih h)

/-- What the check of the files has found. -/
theorem verifyFiles_ok {todo : List TransferFileEntry} (h : verifyFiles env root fs todo = .ok ()) :
    ∀ f ∈ todo, ∃ rel data, safeRelativePath f.path = .ok rel ∧ findFile fs root rel = some data ∧
      data.size = f.size ∧ env.sha256Hex data = f.sha256 := by
  induction todo with
  | nil => exact fun f hf => (List.not_mem_nil hf).elim
  | cons f rest ih =>
    obtain ⟨rel, hrel, h⟩ := Bytes.bind_eq_ok.mp h
    split at h
    · cases h
    · rename_i data hdata
      obtain ⟨hsize, h⟩ := Bytes.ite_error_eq_ok.mp h
      obtain ⟨hsha, h⟩ := Bytes.ite_error_eq_ok.mp h
      intro g hg
      cases List.mem_cons.mp hg with
      | inl he =>
        subst he
        exact ⟨rel, data, hrel, hdata, not_not.mp hsize, not_not.mp hsha⟩
      | inr hg => exact ih h g hg

end

/-! Where the transfer stands before and after. -/

theorem segment_name {raw : Text} : '/' ∉ Sanitize.sanitizePathSegment raw ∧
    Sanitize.sanitizePathSegment raw ∉ [[], ['.'], ['.', '.']] ∧
    Sanitize.sanitizePathSegment raw ≠ ".staging".toList := by
  have hhead := Sanitize.sanitizePathSegment_head raw
  refine ⟨fun hm => absurd (Sanitize.sanitizePathSegment_chars hm) (by decide), ?_, ?_⟩
  · simp only [List.mem_cons, List.not_mem_nil, or_false, not_or]
    refine ⟨Sanitize.sanitizePathSegment_ne_nil raw, ?_, ?_⟩
    · intro he
      rw [he] at hhead
      exact hhead rfl
    · intro he
      rw [he] at hhead
      exact hhead rfl
  · intro he
    rw [he] at hhead
    exact hhead (by decide)

theorem inboxDir_eq (inboxRoot : List Text) (taskId : Text) :
    inboxDir inboxRoot taskId = inboxRoot ++ [safeTaskFileName taskId] :=
  joined_name inboxRoot segment_name.1 segment_name.2.1

theorem stagingDir_eq (inboxRoot : List Text) (transferId : Text) : ∃ name,
    stagingDir inboxRoot transferId = inboxRoot ++ [".staging".toList] ++ [name] := by
  rw [stagingDir, joined_name inboxRoot (by decide) (by decide), sanitizeTransferId]
  split
  · exact ⟨_, joined_name _ (by decide) (by decide)⟩
  · exact ⟨_, joined_name _ segment_name.1 segment_name.2.1⟩

theorem joined_out (base : List Text) : joined base "out".toList = base ++ ["out".toList] :=
  joined_name base (by decide) (by decide)

theorem joined_files (base : List Text) : joined base "files".toList = base ++ ["files".toList] :=
  joined_name base (by decide) (by decide)

/-- The inbox directory of a task and the staging directories lie apart. -/
theorem inbox_apart (inboxRoot : List Text) (taskId transferId : Text) (rest : List Text) :
    ¬ inboxDir inboxRoot taskId <+: stagingDir inboxRoot transferId ++ rest := by
  obtain ⟨name, hst⟩ := stagingDir_eq inboxRoot transferId
  rw [inboxDir_eq, hst, List.append_assoc, List.append_assoc, List.prefix_append_right_inj]
  intro hpre
  exact segment_name.2.2 (List.cons_prefix_cons.mp hpre).1

/-- What `end` has done where it returns ok. -/
theorem endTransfer_ok {inboxRoot : List Text} {transferId : Text} {begin : TransferBegin}
    {before after : Files}
    (h : endTransfer env inboxRoot transferId (some begin) before = some (.ok after)) :
    ∃ mid, Assembled (joined (joined (stagingDir inboxRoot transferId) "out".toList) "files".toList)
        begin.files (before.prune (joined (stagingDir inboxRoot transferId) "out".toList)) mid ∧
      verifyFiles env (joined (joined (stagingDir inboxRoot transferId) "out".toList)
        "files".toList) mid begin.files = .ok () ∧
      (mid.prune (inboxDir inboxRoot begin.taskId)).move
        (joined (stagingDir inboxRoot transferId) "out".toList)
        (inboxDir inboxRoot begin.taskId) = some after := by
  simp only [endTransfer] at h
  split at h
  · cases h
  obtain ⟨plan, -, h⟩ := Option.bind_eq_some_iff.mp h
  split at h
  · cases h
  rename_i created hcreated
  obtain ⟨written, hwritten, hdone⟩ := Option.map_eq_some_iff.mp h
  obtain ⟨mid, hmid, hdone⟩ := Bytes.bind_eq_ok.mp hdone
  obtain ⟨_, hverified, hlanded⟩ := Bytes.bind_eq_ok.mp hdone
  obtain ⟨-, hlanded⟩ := Bytes.ite_error_eq_ok.mp hlanded
  subst hmid
  split at hlanded
  · cases hlanded
  rename_i moved hmoved
  obtain rfl := Except.ok.inj hlanded
  have hfirst := createEmpty_assembled (fun f hf => hf) hcreated
  exact ⟨mid, hfirst.trans (writeChunks_assembled hwritten), hverified, hmoved⟩

/-- Every file where its entry says, no other one, and nothing changed anywhere else. -/
structure Arrived (env : Host) (inboxRoot : List Text) (transferId : Text) (begin : TransferBegin)
    (before after : Files) : Prop where
  own : ∃ name, inboxDir inboxRoot begin.taskId = inboxRoot ++ [name] ∧ '/' ∉ name ∧
    name ∉ [[], ['.'], ['.', '.']]
  found : ∀ f ∈ begin.files, ∃ data,
    findFile after (joined (inboxDir inboxRoot begin.taskId) "files".toList) f.path = some data ∧
      data.size = f.size ∧ env.sha256Hex data = f.sha256
  only : ∀ p ∈ after.paths, joined (inboxDir inboxRoot begin.taskId) "files".toList <+: p →
    ∃ f ∈ begin.files, joined (joined (inboxDir inboxRoot begin.taskId) "files".toList) f.path = p
  inside : ∀ p, after.find p ≠ before.find p →
    inboxDir inboxRoot begin.taskId <+: p ∨ stagingDir inboxRoot transferId <+: p

section
variable {inboxRoot : List Text} {transferId : Text} {begin : TransferBegin} {before after : Files}

/-- The landed directory holds the files that the entries lead to once they are trimmed. -/
theorem landed_files
    (h : endTransfer env inboxRoot transferId (some begin) before = some (.ok after)) :
    (∀ f ∈ begin.files, ∃ rel data, safeRelativePath f.path = .ok rel ∧
      findFile after (joined (inboxDir inboxRoot begin.taskId) "files".toList) rel = some data ∧
      data.size = f.size ∧ env.sha256Hex data = f.sha256) ∧
    (∀ p ∈ after.paths, joined (inboxDir inboxRoot begin.taskId) "files".toList <+: p →
      ∃ f ∈ begin.files, IsPlace (joined (inboxDir inboxRoot begin.taskId) "files".toList) f p) ∧
    ∀ p, after.find p ≠ before.find p →
      inboxDir inboxRoot begin.taskId <+: p ∨ stagingDir inboxRoot transferId <+: p := by
  obtain ⟨mid, hmade, hverified, hmoved⟩ := endTransfer_ok h
  have happart := inbox_apart inboxRoot begin.taskId transferId
  generalize inboxDir inboxRoot begin.taskId = landed at *
  generalize stagingDir inboxRoot transferId = st at *
  simp only [joined_out, joined_files, List.append_assoc, List.cons_append, List.nil_append] at *
  have hback (q : List Text) : after.find (landed ++ "files".toList :: q) =
      mid.find (st ++ "out".toList :: "files".toList :: q) := by
    have happ : ¬ landed <+: st ++ "out".toList :: "files".toList :: q := happart _
    rw [find_move hmoved, if_pos (List.prefix_append _ _), List.drop_left, List.append_assoc,
      List.cons_append, List.nil_append, find_prune, if_neg happ]
  refine ⟨fun f hf => ?_, fun p hp hpre => ?_, fun p hp => ?_⟩
  · obtain ⟨rel, data, hrel, hdata, hsame⟩ := verifyFiles_ok hverified f hf
    refine ⟨rel, data, hrel, ?_, hsame⟩
    rw [findFile] at hdata ⊢
    split at hdata
    · rename_i hfile
      rw [if_pos hfile]
      rw [joined_safe _ hrel, List.append_assoc] at hdata ⊢
      exact (hback _).trans hdata
    · cases hdata
  · obtain ⟨q, rfl⟩ := hpre
    obtain ⟨data, hdata⟩ := mem_paths_iff.mp hp
    rw [List.append_assoc, List.cons_append, List.nil_append, hback] at hdata
    cases hmade.placed _ (mem_paths_iff.mpr ⟨data, hdata⟩) with
    | inl hold =>
      obtain ⟨_, hold⟩ := mem_paths_iff.mp hold
      have hunder : st ++ ["out".toList] <+: st ++ "out".toList :: "files".toList :: q :=
        ⟨"files".toList :: q, by rw [List.append_assoc]; rfl⟩
      rw [find_prune, if_pos hunder] at hold
      cases hold
    | inr hnew =>
      obtain ⟨f, hf, rel, hrel, hfile, hplace⟩ := hnew
      refine ⟨f, hf, rel, hrel, hfile, ?_⟩
      rw [joined_safe _ hrel, List.append_assoc, List.append_cancel_left_eq] at hplace
      rw [joined_safe _ hrel, List.append_assoc, List.append_assoc, List.append_cancel_left_eq]
      exact (List.cons.inj hplace).2
  · by_contra hout
    push Not at hout
    obtain ⟨hl, hs⟩ := hout
    have hsrc : ¬ st ++ ["out".toList] <+: p := fun hpre => hs ((List.prefix_append _ _).trans hpre)
    have hroot : ¬ st ++ ["out".toList, "files".toList] <+: p := fun hpre =>
      hs ((List.prefix_append _ _).trans hpre)
    rw [find_move hmoved, if_neg hl, if_neg hsrc, find_prune, if_neg hl, hmade.outside p hroot,
      find_prune, if_neg hsrc] at hp
    exact hp rfl

/-- The files are found under the names they were declared with where no name was trimmed. -/
theorem arrived_iff
    (h : endTransfer env inboxRoot transferId (some begin) before = some (.ok after)) :
    Arrived env inboxRoot transferId begin before after ↔
      ∀ f ∈ begin.files, trim f.path = f.path := by
  obtain ⟨hfound, honly, hinside⟩ := landed_files h
  constructor
  · intro ha f hf
    obtain ⟨data, hdata, -⟩ := ha.found f hf
    obtain ⟨rel, -, hrel, -⟩ := hfound f hf
    rw [findFile] at hdata
    split at hdata
    · have hmem := mem_paths_iff.mpr ⟨data, hdata⟩
      rw [joined_declared _ hrel] at hmem
      obtain ⟨g, -, rel', hrel', hfile, hplace⟩ := honly _ hmem (List.prefix_append _ _)
      rw [joined_safe _ hrel', List.append_cancel_left_eq] at hplace
      exact trim_eq_of_names hrel' hfile hplace.symm
    · cases hdata
  · intro htrim
    refine ⟨⟨_, inboxDir_eq inboxRoot begin.taskId, segment_name.1, segment_name.2.1⟩,
      fun f hf => ?_, fun p hp hpre => ?_, hinside⟩
    · obtain ⟨rel, data, hrel, hdata, hsame⟩ := hfound f hf
      have he : rel = f.path := (safeRelativePath_ok hrel).trans (htrim f hf)
      exact ⟨data, he ▸ hdata, hsame⟩
    · obtain ⟨f, hf, rel, hrel, -, hplace⟩ := honly p hp hpre
      have he : rel = f.path := (safeRelativePath_ok hrel).trans (htrim f hf)
      exact ⟨f, hf, he ▸ hplace⟩

end

/-- A directory's list, its fingerprint, and what has become of a transfer at its end. -/
structure OwnNames (env : Host) (listed : List TransferFileEntry) (inboxRoot : List Text)
    (transferId : Text) (begin : TransferBegin) (before after : Files) : Prop where
  distinct : (listed.map TransferFileEntry.path).Nodup
  safe : ∀ f ∈ listed, ∃ rel, safeRelativePath f.path = .ok rel
  fingerprint : ∀ u others, collectDirFiles env u = .ok others →
    contentHash env listed = contentHash env others → listed = others
  arrived : Arrived env inboxRoot transferId begin before after

/-- Any directory tree, and any transfer that `end` accepts. -/
theorem own_names_iff {t : SourceTree} {listed : List TransferFileEntry} {inboxRoot : List Text}
    {transferId : Text} {begin : TransferBegin} {before after : Files}
    (hlisted : collectDirFiles env t = .ok listed)
    (hend : endTransfer env inboxRoot transferId (some begin) before = some (.ok after)) :
    OwnNames env listed inboxRoot transferId begin before after ↔
      t.Untwinned ∧ ∀ f ∈ begin.files, trim f.path = f.path := by
  constructor
  · intro h
    exact ⟨(collected_paths hlisted).mp h.distinct, (arrived_iff hend).mp h.arrived⟩
  · rintro ⟨huntwinned, htrim⟩
    exact ⟨(collected_paths hlisted).mpr huntwinned, collected_safe hlisted,
      fun u others hu he => contentHash_inj hlisted hu he, (arrived_iff hend).mpr htrim⟩

/-- Each byte as one letter, in place of a digest. -/
def letters (data : ByteArray) : Text := data.data.toList.map fun b => Char.ofNat (b.toNat + 256)

theorem byte_of_letter (b : UInt8) :
    UInt8.ofNat ((Char.ofNat (b.toNat + 256)).toNat - 256) = b := by
  have hlt := b.toNat_lt
  rw [Char.toNat_ofNat, if_pos (Or.inl (by omega)), Nat.add_sub_cancel, UInt8.ofNat_toNat]

def lettersHost : Host where
  sha256Hex := letters
  injective a b h := by
    have hbytes := congrArg (List.map fun c : Char => UInt8.ofNat (c.toNat - 256)) h
    simp only [letters, List.map_map, Function.comp_def, byte_of_letter, List.map_id'] at hbytes
    cases a
    cases b
    exact congrArg ByteArray.mk (Array.toList_inj.mp hbytes)
  hex data h := by
    obtain ⟨b, -, hb⟩ := List.mem_map.mp h
    have hlt := b.toNat_lt
    have htoNat := congrArg Char.toNat hb
    rw [Char.toNat_ofNat, if_pos (Or.inl (by omega))] at htoNat
    have hten : '\n'.toNat = 10 := rfl
    omega
  osError := []

def plainEntry (name : Text) : DirEntry := ⟨name, true, true, true⟩

def oneFile (name : Text) (h : name ≠ [] ∧ '/' ∉ name) (data : ByteArray) : SourceTree where
  shown := "/w".toList
  there := true
  lists := true
  entries := .file (plainEntry name) data true true .nil
  named := ⟨⟨h.1, h.2, List.not_mem_nil⟩, trivial⟩

def begun (path : Text) (data : ByteArray) : TransferBegin where
  transferId := "t1".toList
  taskId := "t".toList
  totalBytes := data.size
  chunkSize := 1
  chunkCount := data.size
  files := [⟨path, data.size, letters data⟩]
  contentHash := "h".toList

def stagedFiles (ws : List (List Text × ByteArray)) : Files :=
  (Tree.empty.putAll ws).getD Tree.empty

/-- The chunk of one byte, and an older content of the task. -/
def besideOld : Files := stagedFiles
  [(["inbox".toList, ".staging".toList, "t1".toList, "chunk_000000.bin".toList], ⟨#[7]⟩),
    (["inbox".toList, "t".toList, "files".toList, "old".toList], ⟨#[]⟩)]

theorem oneFile_listed {name : Text} (h : name ≠ [] ∧ '/' ∉ name) (data : ByteArray)
    (hfence : fenced (normalized [] name) = false)
    (hnoise : isNoiseFile (normalized [] name) = false) :
    collectDirFiles lettersHost (oneFile name h data) =
      .ok [⟨normalized [] name, data.size, letters data⟩] := by
  have hwalk : walk lettersHost (oneFile name h data).shown [] (oneFile name h data).entries =
      .ok [⟨normalized [] name, data.size, letters data⟩] := by
    simp only [oneFile, walk, collectVisit, plainEntry, hfence, hnoise]
    rfl
  rw [collectDirFiles, hwalk]
  exact congrArg Except.ok (List.mergeSort_singleton _)

theorem planChunks_empty (path : Text) :
    planChunks (begun path ByteArray.empty).files 1 = some [] := by
  rw [planChunks, if_neg (by decide), begun, planFrom, planFile,
    dif_neg fun h => Nat.lt_irrefl 0 h.1]
  rfl

theorem planChunks_byte (path : Text) (b : UInt8) :
    planChunks (begun path ⟨#[b]⟩).files 1 = some [⟨0, 0, 1⟩] := by
  have hone : (⟨#[b]⟩ : ByteArray).size = 1 := rfl
  rw [planChunks, if_neg (by decide), begun, planFrom, hone, planFile,
    dif_pos ⟨Nat.one_pos, Nat.one_pos⟩]
  simp only [checkedAdd]
  rw [planFile, dif_neg fun h => Nat.lt_irrefl 1 h.1]
  rfl

/-- One byte, where an older content of the task has landed before. -/
theorem own_names_byte : ∃ after,
    OwnNames lettersHost (begun "a".toList ⟨#[7]⟩).files ["inbox".toList] "t1".toList
      (begun "a".toList ⟨#[7]⟩) besideOld after ↔
      (oneFile "a".toList (by decide) ⟨#[7]⟩).Untwinned ∧
        ∀ f ∈ (begun "a".toList ⟨#[7]⟩).files, trim f.path = f.path := by
  have hok : ((endTransfer lettersHost ["inbox".toList] "t1".toList
      (some (begun "a".toList ⟨#[7]⟩)) besideOld).bind Except.toOption).isSome = true := by
    simp only [endTransfer]
    rw [show (begun "a".toList ⟨#[7]⟩).chunkSize = 1 from rfl, planChunks_byte]
    decide +kernel
  obtain ⟨after, hafter⟩ := Option.isSome_iff_exists.mp hok
  obtain ⟨r, hr, hafter⟩ := Option.bind_eq_some_iff.mp hafter
  cases r with
  | error e => cases hafter
  | ok moved => exact ⟨moved, own_names_iff (oneFile_listed _ _ rfl rfl) hr⟩

/-- A file whose name begins with a blank arrives without it. -/
theorem own_names_not : ∃ after,
    collectDirFiles lettersHost (oneFile " a".toList (by decide) ByteArray.empty) =
      .ok (begun " a".toList ByteArray.empty).files ∧
    validateManifest (begun " a".toList ByteArray.empty) = some (.ok ()) ∧
    endTransfer lettersHost ["inbox".toList] "t1".toList (some (begun " a".toList ByteArray.empty))
      (stagedFiles []) = some (.ok after) ∧
    ¬ OwnNames lettersHost (begun " a".toList ByteArray.empty).files ["inbox".toList] "t1".toList
      (begun " a".toList ByteArray.empty) (stagedFiles []) after := by
  have hok : ((endTransfer lettersHost ["inbox".toList] "t1".toList
      (some (begun " a".toList ByteArray.empty)) (stagedFiles [])).bind Except.toOption).isSome =
      true := by
    simp only [endTransfer]
    rw [show (begun " a".toList ByteArray.empty).chunkSize = 1 from rfl, planChunks_empty]
    decide +kernel
  obtain ⟨after, hafter⟩ := Option.isSome_iff_exists.mp hok
  obtain ⟨r, hr, hafter⟩ := Option.bind_eq_some_iff.mp hafter
  cases r with
  | error e => cases hafter
  | ok moved =>
    refine ⟨moved, oneFile_listed _ _ rfl rfl, rfl, hr, fun h => ?_⟩
    have htrim := (arrived_iff hr).mp h.arrived _ List.mem_cons_self
    exact absurd htrim (by decide)

end NemesisBot.Transfer
