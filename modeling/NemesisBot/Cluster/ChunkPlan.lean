import NemesisBot.Cluster.Transfer

/-! How a transfer is cut into chunks: the plan as a list, the number of its entries and the
length of one entry. Words have 64 bits; `none` is an overflow or a failed assertion. -/
namespace NemesisBot.Transfer
open Strings

structure TransferBegin where
  transferId : Text
  taskId : Text
  totalBytes : Nat
  chunkSize : Nat
  chunkCount : Nat
  files : List TransferFileEntry
  contentHash : Text

def maxWord : Nat := 2 ^ 64 - 1

def checkedAdd (a b : Nat) : Option Nat := if a + b ≤ maxWord then some (a + b) else none

def checkedSub (a b : Nat) : Option Nat := if b ≤ a then some (a - b) else none

def checkedMul (a b : Nat) : Option Nat := if a * b ≤ maxWord then some (a * b) else none

def saturatingAdd (a b : Nat) : Nat := min (a + b) maxWord

def divCeil (a b : Nat) : Option Nat :=
  if b = 0 then none else if a % b = 0 then some (a / b) else checkedAdd (a / b) 1

structure Chunk where
  file : Nat
  offset : Nat
  len : Nat
  deriving DecidableEq

/-- The chunks of one file from an offset on. -/
def planFile (idx size chunkSize off : Nat) : Option (List Chunk) :=
  if _h : off < size ∧ 0 < chunkSize then
    let len := min (size - off) chunkSize
    match checkedAdd off len with
    | some _ => (planFile idx size chunkSize (off + len)).map fun rest => ⟨idx, off, len⟩ :: rest
    | none => none
  else some []
termination_by size - off

def planFrom (chunkSize : Nat) : Nat → List TransferFileEntry → Option (List Chunk)
  | _, [] => some []
  | idx, f :: rest => do
    let seg ← planFile idx f.size chunkSize 0
    let plan ← planFrom chunkSize (idx + 1) rest
    some (seg ++ plan)

def planChunks (files : List TransferFileEntry) (chunkSize : Nat) : Option (List Chunk) :=
  if chunkSize = 0 then none else planFrom chunkSize 0 files

def chunkCount (files : List TransferFileEntry) (chunkSize : Nat) : Option Nat :=
  (files.mapM fun f => divCeil f.size chunkSize).map fun counts => counts.foldl saturatingAdd 0

def plannedFrom (chunkSize seq : Nat) : Nat → List TransferFileEntry → Option (Option Nat)
  | _, [] => some none
  | base, f :: rest => do
    let n ← divCeil f.size chunkSize
    if base ≤ seq ∧ seq < saturatingAdd base n then do
      let within := seq - base
      let next ← checkedAdd within 1
      if next = n then do
        let before ← checkedMul within chunkSize
        let len ← checkedSub f.size before
        some (some len)
      else some (some chunkSize)
    else plannedFrom chunkSize seq (saturatingAdd base n) rest

def plannedChunkLen (files : List TransferFileEntry) (chunkSize seq : Nat) :
    Option (Option Nat) := plannedFrom chunkSize seq 0 files

def maxManifestFiles : Nat := 100000

def decimal (n : Nat) : Text := Nat.toDigits 10 n

def checkCount (req : TransferBegin) : Option (Except Text Unit) :=
  (chunkCount req.files req.chunkSize).map fun expect =>
    if expect ≠ req.chunkCount then
      .error ("块数 ".toList ++ decimal expect ++ " ≠ 声明 ".toList ++ decimal req.chunkCount)
    else if req.contentHash = [] then .error "content_hash 不能为空".toList
    else .ok ()

def validateManifest (req : TransferBegin) : Option (Except Text Unit) :=
  if req.transferId = [] ∨ req.taskId = [] then
    some (.error "transfer_id/task_id 不能为空".toList)
  else if maxManifestFiles < req.files.length then
    some (.error ("manifest 文件条目 ".toList ++ decimal req.files.length ++ " 超上限 ".toList ++
      decimal maxManifestFiles ++ "——病态海量小文件目录请先归档为单文件再传".toList))
  else if req.chunkSize = 0 then some (.error "chunk_size 必须为正".toList)
  else match req.files.mapM fun f => safeRelativePath f.path with
    | .error e => some (.error e)
    | .ok _ =>
      let total := (req.files.map TransferFileEntry.size).foldl saturatingAdd 0
      if total ≠ req.totalBytes then
        some (.error ("manifest 总量 ".toList ++ decimal total ++ " ≠ 声明 ".toList ++
          decimal req.totalBytes))
      else checkCount req

/-- The chunks lie one behind the other from `start` to `stop`. -/
def Covers : Nat → Nat → List Chunk → Prop
  | start, stop, [] => start = stop
  | start, stop, c :: rest => c.offset = start ∧ Covers (start + c.len) stop rest

/-- File after file, each with its own chunks. -/
def Laid : Nat → List TransferFileEntry → List Chunk → Prop
  | _, [], plan => plan = []
  | idx, f :: rest, plan => ∃ seg after, plan = seg ++ after ∧ (∀ c ∈ seg, c.file = idx) ∧
      Covers 0 f.size seg ∧ Laid (idx + 1) rest after

/-- The closed forms agree with the plan as far as a word can count. -/
structure Agrees (files : List TransferFileEntry) (chunkSize : Nat) (plan : List Chunk) : Prop where
  planned : planChunks files chunkSize = some plan
  count : chunkCount files chunkSize = some (min plan.length maxWord)
  lens : ∀ seq ≤ maxWord, plannedChunkLen files chunkSize seq =
    some (if seq < maxWord then plan[seq]?.map Chunk.len else none)
  sized : ∀ c ∈ plan, 1 ≤ c.len ∧ c.len ≤ chunkSize
  laid : Laid 0 files plan

/-- How many chunks a file has. -/
def blocks (size chunkSize : Nat) : Nat := (size + chunkSize - 1) / chunkSize

theorem blocks_zero {c : Nat} (hc : 0 < c) : blocks 0 c = 0 := by
  have hlt : 0 + c - 1 < c := by omega
  rw [blocks, Nat.div_eq_of_lt hlt]

theorem blocks_last {s c : Nat} (hs : 0 < s) (hle : s ≤ c) : blocks s c = 1 := by
  have hlow : 1 ≤ (s + c - 1) / c := (Nat.one_le_div_iff (by omega)).mpr (by omega)
  have hhigh : (s + c - 1) / c < 2 := Nat.div_lt_of_lt_mul (by omega)
  rw [blocks]
  omega

theorem blocks_step {s c : Nat} (hc : 0 < c) (hlt : c < s) :
    blocks s c = blocks (s - c) c + 1 := by
  have he : s + c - 1 = s - c + c - 1 + c := by omega
  rw [blocks, he, Nat.add_div_right _ hc]
  rfl

theorem blocks_le {s c : Nat} (hc : 0 < c) : blocks s c ≤ s := by
  cases s with
  | zero => rw [blocks_zero hc]
  | succ s =>
    have hcs : c * (s + 1) = c * s + c := Nat.mul_succ c s
    have hs : s ≤ c * s := Nat.le_mul_of_pos_left s hc
    exact Nat.div_le_of_le_mul (by omega)

/-- The rounding up of a word is a word. -/
theorem divCeil_eq {a b : Nat} (hb : 0 < b) (ha : a ≤ maxWord) : divCeil a b = some (blocks a b) := by
  have hsplit := Nat.div_add_mod a b
  have hmod := Nat.mod_lt a hb
  rw [divCeil, if_neg (by omega)]
  split
  · rename_i h0
    have hle : (a + b - 1) / b = a / b := by
      have he : a + b - 1 = b - 1 + b * (a / b) := by omega
      rw [he, Nat.add_mul_div_left _ _ hb, Nat.div_eq_of_lt (by omega), Nat.zero_add]
    rw [blocks, hle]
  · rename_i h0
    have hle : (a + b - 1) / b = a / b + 1 := by
      have he : a + b - 1 = a % b - 1 + b * (a / b + 1) := by
        rw [Nat.mul_succ]
        omega
      rw [he, Nat.add_mul_div_left _ _ hb, Nat.div_eq_of_lt (by omega), Nat.zero_add]
    have hword : a / b + 1 ≤ maxWord := by
      have := blocks_le (s := a) hb
      rw [blocks, hle] at this
      omega
    rw [checkedAdd, if_pos hword, blocks, hle]

/-- What the loop over one file lays down. -/
structure FilePlan (idx size chunkSize off : Nat) (seg : List Chunk) : Prop where
  length : seg.length = blocks (size - off) chunkSize
  own : ∀ c ∈ seg, c.file = idx
  covers : Covers off size seg
  sized : ∀ c ∈ seg, 1 ≤ c.len ∧ c.len ≤ chunkSize
  lens : ∀ k < seg.length, seg[k]?.map Chunk.len =
    some (if k + 1 = seg.length then size - off - k * chunkSize else chunkSize)

theorem planFile_spec {idx size chunkSize off : Nat} (hc : 0 < chunkSize) (hs : size ≤ maxWord)
    (ho : off ≤ size) : ∃ seg, planFile idx size chunkSize off = some seg ∧
      FilePlan idx size chunkSize off seg := by
  induction hleft : size - off using Nat.strong_induction_on generalizing off with
  | _ left ih =>
    subst hleft
    rw [planFile]
    by_cases hlt : off < size
    · have hword : off + min (size - off) chunkSize ≤ maxWord := by omega
      obtain ⟨rest, hrest, hp⟩ := @ih (size - (off + min (size - off) chunkSize)) (by omega)
        (off + min (size - off) chunkSize) (by omega) rfl
      rw [dif_pos ⟨hlt, hc⟩]
      simp only [checkedAdd, if_pos hword, hrest, Option.map_some]
      refine ⟨_, rfl, ?_, fun c hmem => ?_, ⟨rfl, hp.covers⟩, fun c hmem => ?_, fun k hk => ?_⟩
      · rw [List.length_cons, hp.length]
        by_cases hlast : size - off ≤ chunkSize
        · rw [Nat.min_eq_left hlast, blocks_last (by omega) hlast, Nat.add_sub_cancel' ho,
            Nat.sub_self, blocks_zero hc]
        · rw [Nat.min_eq_right (Nat.le_of_not_le hlast), ← Nat.sub_sub,
            blocks_step hc (Nat.lt_of_not_le hlast)]
      · cases List.mem_cons.mp hmem with
        | inl h => rw [h]
        | inr h => exact hp.own c h
      · cases List.mem_cons.mp hmem with
        | inl h =>
          rw [h]
          exact ⟨by simp only; omega, Nat.min_le_right _ _⟩
        | inr h => exact hp.sized c h
      · by_cases hlast : size - off ≤ chunkSize
        · have hnil : rest.length = 0 := by
            rw [hp.length, Nat.min_eq_left hlast, Nat.add_sub_cancel' ho, Nat.sub_self,
              blocks_zero hc]
          rw [List.length_cons, hnil] at hk ⊢
          obtain rfl : k = 0 := by omega
          rw [List.getElem?_cons_zero, Option.map_some, if_pos rfl, Nat.zero_mul]
          exact congrArg some (Nat.min_eq_left hlast)
        · cases k with
          | zero =>
            have hmore : rest.length ≠ 0 := by
              rw [hp.length, Nat.min_eq_right (by omega)]
              exact Nat.ne_of_gt (Nat.div_pos (by omega) hc)
            rw [List.getElem?_cons_zero, Option.map_some, List.length_cons, if_neg (by omega)]
            exact congrArg some (Nat.min_eq_right (by omega))
          | succ k =>
            have hmul : (k + 1) * chunkSize = k * chunkSize + chunkSize := Nat.succ_mul k chunkSize
            rw [List.length_cons] at hk ⊢
            rw [List.getElem?_cons_succ, hp.lens k (by omega)]
            simp only [Nat.add_right_cancel_iff, Nat.min_eq_right (by omega : chunkSize ≤ size - off)]
            congr 2
            omega
    · obtain rfl : off = size := by omega
      rw [dif_neg (fun h => hlt h.1)]
      refine ⟨_, rfl, ?_, fun c hmem => (List.not_mem_nil hmem).elim, rfl,
        fun c hmem => (List.not_mem_nil hmem).elim, fun k hk => (Nat.not_lt_zero k hk).elim⟩
      rw [Nat.sub_self, blocks_zero hc]
      rfl

theorem planFrom_spec {chunkSize : Nat} (hc : 0 < chunkSize) {files : List TransferFileEntry}
    (hs : ∀ f ∈ files, f.size ≤ maxWord) (idx : Nat) :
    ∃ plan, planFrom chunkSize idx files = some plan ∧
      plan.length = (files.map fun f => blocks f.size chunkSize).sum ∧
      (∀ c ∈ plan, 1 ≤ c.len ∧ c.len ≤ chunkSize) ∧ Laid idx files plan := by
  induction files generalizing idx with
  | nil => exact ⟨[], rfl, rfl, fun c hmem => (List.not_mem_nil hmem).elim, rfl⟩
  | cons f rest ih =>
    obtain ⟨seg, hseg, hp⟩ := @planFile_spec idx _ _ _ hc (hs f List.mem_cons_self)
      (Nat.zero_le f.size)
    obtain ⟨plan, hplan, hlen, hsized, hlaid⟩ :=
      ih (fun g hg => hs g (List.mem_cons_of_mem f hg)) (idx + 1)
    refine ⟨seg ++ plan, ?_, ?_, fun c hmem => ?_, seg, plan, rfl, hp.own, hp.covers, hlaid⟩
    · rw [planFrom, hseg, hplan]
      rfl
    · rw [List.length_append, hp.length, Nat.sub_zero, hlen, List.map_cons, List.sum_cons]
    · cases List.mem_append.mp hmem with
      | inl h => exact hp.sized c h
      | inr h => exact hsized c h

theorem foldl_saturatingAdd (counts : List Nat) (base : Nat) :
    counts.foldl saturatingAdd (min base maxWord) = min (base + counts.sum) maxWord := by
  induction counts generalizing base with
  | nil => rfl
  | cons n counts ih =>
    have hstep : saturatingAdd (min base maxWord) n = min (base + n) maxWord := by
      rw [saturatingAdd]
      omega
    rw [List.foldl_cons, hstep, ih, List.sum_cons, Nat.add_assoc]

theorem chunkCount_eq {files : List TransferFileEntry} {chunkSize : Nat} (hc : 0 < chunkSize)
    (hs : ∀ f ∈ files, f.size ≤ maxWord) : chunkCount files chunkSize =
      some (min (files.map fun f => blocks f.size chunkSize).sum maxWord) := by
  have hcounts : (files.mapM fun f => divCeil f.size chunkSize) =
      some (files.map fun f => blocks f.size chunkSize) := by
    induction files with
    | nil => rfl
    | cons f rest ih =>
      rw [List.mapM_cons, divCeil_eq hc (hs f List.mem_cons_self),
        ih fun g hg => hs g (List.mem_cons_of_mem f hg)]
      rfl
  have hfold := foldl_saturatingAdd (files.map fun f => blocks f.size chunkSize) 0
  rw [Nat.zero_add] at hfold
  rw [chunkCount, hcounts, Option.map_some, ← hfold]
  rfl

/-- The search for an entry: the chunks before `base` have been passed. -/
theorem plannedFrom_eq {chunkSize seq : Nat} (hc : 0 < chunkSize) (hq : seq ≤ maxWord)
    {files : List TransferFileEntry} (hs : ∀ f ∈ files, f.size ≤ maxWord) {idx base : Nat}
    {plan : List Chunk} (hplan : planFrom chunkSize idx files = some plan) :
    plannedFrom chunkSize seq (min base maxWord) files =
      some (if base ≤ seq ∧ seq < maxWord then plan[seq - base]?.map Chunk.len else none) := by
  induction files generalizing idx base plan with
  | nil =>
    obtain rfl := Option.some.inj hplan
    rw [plannedFrom, List.getElem?_nil, Option.map_none, ite_self]
  | cons f rest ih =>
    have hsize := hs f List.mem_cons_self
    have hrest : ∀ g ∈ rest, g.size ≤ maxWord := fun g hg => hs g (List.mem_cons_of_mem f hg)
    obtain ⟨seg, hseg, hp⟩ := @planFile_spec idx _ _ _ hc hsize (Nat.zero_le f.size)
    obtain ⟨after, hafter, _⟩ := planFrom_spec hc hrest (idx + 1)
    have hboth : planFrom chunkSize idx (f :: rest) = some (seg ++ after) := by
      rw [planFrom, hseg, hafter]
      rfl
    obtain rfl : seg ++ after = plan := Option.some.inj (hboth.symm.trans hplan)
    have hlen : seg.length = blocks f.size chunkSize := by rw [hp.length, Nat.sub_zero]
    have hsat : saturatingAdd (min base maxWord) (blocks f.size chunkSize) =
        min (base + seg.length) maxWord := by
      rw [saturatingAdd, hlen]
      omega
    have hfound : (min base maxWord ≤ seq ∧ seq < min (base + seg.length) maxWord) ↔
        base ≤ seq ∧ seq < base + seg.length ∧ seq < maxWord := by
      omega
    rw [plannedFrom, divCeil_eq hc hsize]
    simp only [Option.bind_eq_bind, Option.bind_some, hsat, hfound]
    by_cases hin : base ≤ seq ∧ seq < base + seg.length ∧ seq < maxWord
    · obtain ⟨hlow, hhigh, hmax⟩ := hin
      have hk : seq - base < seg.length := by omega
      have hentry := hp.lens (seq - base) hk
      have hbase : min base maxWord = base := by omega
      have hnext : seq - base + 1 ≤ maxWord := by omega
      rw [if_pos ⟨hlow, hhigh, hmax⟩, if_pos ⟨hlow, hmax⟩, List.getElem?_append_left hk, hentry,
        hbase, checkedAdd, if_pos hnext, Option.bind_some, ← hlen, Nat.sub_zero]
      by_cases hlast : seq - base + 1 = seg.length
      · have hbefore : (seq - base) * chunkSize < f.size := by
          have hmem : seg[seq - base] ∈ seg := List.getElem_mem hk
          have hpos := (hp.sized _ hmem).1
          rw [List.getElem?_eq_getElem hk, Option.map_some, Option.some.injEq, if_pos hlast] at hentry
          omega
        rw [if_pos hlast, if_pos hlast, checkedMul, if_pos (by omega), Option.bind_some, checkedSub,
          if_pos (by omega), Option.bind_some]
      · rw [if_neg hlast, if_neg hlast]
    · rw [if_neg hin, ih hrest hafter]
      by_cases hlow : base ≤ seq ∧ seq < maxWord
      · have hpast : base + seg.length ≤ seq := by omega
        rw [if_pos hlow, if_pos ⟨hpast, hlow.2⟩, List.getElem?_append_right (by omega), Nat.sub_sub]
      · rw [if_neg hlow, if_neg (by omega)]

/-- Files of 64-bit sizes, cut into chunks of any positive size. -/
theorem chunks_agree {files : List TransferFileEntry} {chunkSize : Nat}
    (hs : ∀ f ∈ files, f.size ≤ maxWord) (hc : 1 ≤ chunkSize) :
    ∃ plan, Agrees files chunkSize plan := by
  obtain ⟨plan, hplan, hlen, hsized, hlaid⟩ := planFrom_spec hc hs 0
  refine ⟨plan, ?_, ?_, fun seq hq => ?_, hsized, hlaid⟩
  · rw [planChunks, if_neg (by omega), hplan]
  · rw [chunkCount_eq hc hs, hlen]
  · have hfind := @plannedFrom_eq _ _ hc hq _ hs _ 0 _ hplan
    rw [Nat.zero_min, Nat.sub_zero] at hfind
    rw [plannedChunkLen, hfind]
    simp only [Nat.zero_le, true_and]

/-- An empty file between two others. -/
theorem chunks_agree_small :
    ∃ plan, Agrees [⟨"a".toList, 5, []⟩, ⟨"b".toList, 0, []⟩, ⟨"c".toList, 4, []⟩] 2 plan :=
  chunks_agree (by decide) (by decide)

/-- Two files that fill a word each pass as one word in all. -/
def twoLargest : TransferBegin where
  transferId := "t".toList
  taskId := "t".toList
  totalBytes := maxWord
  chunkSize := 1
  chunkCount := maxWord
  files := [⟨"a".toList, maxWord, []⟩, ⟨"b".toList, maxWord, []⟩]
  contentHash := "h".toList

theorem count_saturates :
    validateManifest twoLargest = some (.ok ()) ∧
      ∃ plan, planChunks twoLargest.files 1 = some plan ∧ maxWord < plan.length ∧
        chunkCount twoLargest.files 1 ≠ some plan.length ∧
        plannedChunkLen twoLargest.files 1 maxWord = some none := by
  have hs : ∀ f ∈ twoLargest.files, f.size ≤ maxWord := by decide
  obtain ⟨plan, hplan, hlen, -, -⟩ := planFrom_spec Nat.one_pos hs 0
  have htwo : plan.length = 2 * maxWord := hlen.trans rfl
  refine ⟨rfl, plan, hplan, by rw [htwo]; decide, fun h => ?_, rfl⟩
  rw [htwo] at h
  exact absurd (Option.some.inj h) (by decide)

end NemesisBot.Transfer
