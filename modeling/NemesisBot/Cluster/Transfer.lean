import NemesisBot.Lib.Strings

/-! The path fence and the exclusions that every directory scan of the transfer applies. -/
namespace NemesisBot.Transfer
open Strings

structure TransferFileEntry where
  path : Text
  size : Nat
  sha256 : Text
  deriving DecidableEq, Repr

/-- `~`, digits, and then the end or a dot. -/
def shortNameAt : Text → Bool
  | '~' :: digit :: after => digit.isDigit && match after.dropWhile Char.isDigit with
    | [] => true
    | c :: _ => c = '.'
  | _ => false

def isShortName (comp : Text) : Bool := comp.tails.tail.any shortNameAt

/-- `Path::components`: empty pieces are dropped, a dot only after the first piece. -/
def components (t : Text) : List Text :=
  match t.splitOn '/' with
  | [] => []
  | first :: rest => first :: rest.filter fun c => c ≠ [] ∧ c ≠ ['.']

theorem mem_of_mem_splitOn {a c : Char} {s name : Text} (hn : name ∈ s.splitOn a)
    (hc : c ∈ name) : c ∈ s := by
  induction s generalizing name with
  | nil =>
    rw [List.splitOn_nil, List.mem_singleton] at hn
    exact hn ▸ hc
  | cons d s ih =>
    rw [List.splitOn_cons_eq_if_modifyHead] at hn
    split at hn
    · cases List.mem_cons.mp hn with
      | inl he => exact (List.not_mem_nil (he ▸ hc)).elim
      | inr hn => exact List.mem_cons_of_mem d (ih hn hc)
    · obtain ⟨first, rest, hs⟩ := List.exists_cons_of_ne_nil (List.splitOn_ne_nil a s)
      rw [hs, List.modifyHead_cons] at hn
      rw [hs] at ih
      cases List.mem_cons.mp hn with
      | inl he =>
        rw [he] at hc
        cases List.mem_cons.mp hc with
        | inl hd => exact hd ▸ List.mem_cons_self
        | inr hc => exact List.mem_cons_of_mem d (ih List.mem_cons_self hc)
      | inr hn => exact List.mem_cons_of_mem d (ih (List.mem_cons_of_mem first hn) hc)

theorem mem_of_mem_components {c : Char} {t name : Text} (hn : name ∈ components t)
    (hc : c ∈ name) : c ∈ t := by
  refine mem_of_mem_splitOn (a := '/') ?_ hc
  rw [components] at hn
  cases hs : t.splitOn '/' with
  | nil => exact absurd hs (List.splitOn_ne_nil '/' t)
  | cons first rest =>
    rw [hs] at hn
    cases List.mem_cons.mp hn with
    | inl he => exact he ▸ List.mem_cons_self
    | inr hn => exact List.mem_cons_of_mem first (List.mem_filter.mp hn).1

def componentError (t comp : Text) : Option Text :=
  if comp = ['.'] ∨ comp = ['.', '.'] then some ("拒绝非普通路径组件：".toList ++ t)
  else if isShortName comp then some ("拒绝 8.3 短名组件：".toList ++ t)
  else none

def safeRelativePath (rel : Text) : Except Text Text :=
  let t := trim rel
  if t = [] then .error "空路径".toList
  else if '\\' ∈ t then .error ("拒绝反斜杠路径（统一 '/' 分隔）：".toList ++ t)
  else if ':' ∈ t then .error ("拒绝含盘符/冒号组件：".toList ++ t)
  else if t.head? = some '/' then .error ("拒绝绝对路径：".toList ++ t)
  else match (components t).findSome? (componentError t) with
    | some e => .error e
    | none => .ok t

/-- What the fence lets through is the path without outer blanks. -/
theorem safeRelativePath_ok {rel t : Text} (h : safeRelativePath rel = .ok t) : t = trim rel := by
  simp only [safeRelativePath] at h
  split at h
  · cases h
  split at h
  · cases h
  split at h
  · cases h
  split at h
  · cases h
  split at h
  · cases h
  · exact (Except.ok.inj h).symm

def lastPiece (rel : Text) : Text := (rel.splitOn '/').getLast?.getD rel

def isNoiseDir (rel : Text) : Bool :=
  lastPiece rel ∈ [".git", "__pycache__", "node_modules", ".pytest_cache", ".mypy_cache",
    ".ruff_cache", ".tox", ".venv", "venv"].map String.toList

def isNoiseFile (rel : Text) : Bool :=
  lastPiece rel ∈ [".git", ".DS_Store", "Thumbs.db"].map String.toList ||
    ".pyc".toList.isSuffixOf (lastPiece rel) || ".pyo".toList.isSuffixOf (lastPiece rel)

end NemesisBot.Transfer
