import Mathlib

/-! Trees of files. A file is found by the names on the way to it; a directory exists as long
as a file lies below it. -/
namespace NemesisBot.FileTree
variable {κ β : Type}

/-- No file lies below another one. -/
structure Tree (κ β : Type) where
  files : List (List κ × β)
  nodup : (files.map Prod.fst).Nodup
  apart : ∀ p ∈ files.map Prod.fst, ∀ q ∈ files.map Prod.fst, p <+: q → p = q

def Tree.empty : Tree κ β where
  files := []
  nodup := List.nodup_nil
  apart _ hp := (List.not_mem_nil hp).elim

def Tree.paths (t : Tree κ β) : List (List κ) := t.files.map Prod.fst

variable [DecidableEq κ]

def Tree.find (t : Tree κ β) (p : List κ) : Option β :=
  (t.files.find? fun f => f.1 = p).map Prod.snd

/-- No file stands above the path and no directory at it. -/
def Tree.Free (t : Tree κ β) (p : List κ) : Prop :=
  p ≠ [] ∧ ∀ q ∈ t.paths, q <+: p ∨ p <+: q → q = p

instance (t : Tree κ β) (p : List κ) : Decidable (t.Free p) :=
  inferInstanceAs (Decidable (_ ∧ _))

theorem Tree.Free.apart {t : Tree κ β} {p : List κ} {b : β} (h : t.Free p) :
    ∀ q ∈ ((p, b) :: t.files.filter fun f => f.1 ≠ p).map Prod.fst,
      ∀ r ∈ ((p, b) :: t.files.filter fun f => f.1 ≠ p).map Prod.fst, q <+: r → q = r := by
  have hold {q : List κ} (hq : q ∈ (t.files.filter fun f => f.1 ≠ p).map Prod.fst) :
      q ∈ t.paths := by
    obtain ⟨f, hf, rfl⟩ := List.mem_map.mp hq
    exact List.mem_map_of_mem (List.mem_filter.mp hf).1
  rw [List.map_cons]
  intro q hq r hr hqr
  obtain rfl | hq := List.mem_cons.mp hq
  · obtain rfl | hr := List.mem_cons.mp hr
    · rfl
    · exact (h.2 r (hold hr) (Or.inr hqr)).symm
  · obtain rfl | hr := List.mem_cons.mp hr
    · exact h.2 q (hold hq) (Or.inl hqr)
    · exact t.apart q (hold hq) r (hold hr) hqr

/-- A file is written, with the directories on the way to it. -/
def Tree.put (t : Tree κ β) (p : List κ) (b : β) : Option (Tree κ β) :=
  if h : t.Free p then some
    { files := (p, b) :: t.files.filter fun f => f.1 ≠ p
      nodup := by
        refine List.nodup_cons.mpr ⟨fun hp => ?_, ?_⟩
        · obtain ⟨f, hf, he⟩ := List.mem_map.mp hp
          simpa [he] using (List.mem_filter.mp hf).2
        · exact t.nodup.sublist (List.filter_sublist.map Prod.fst)
      apart := h.apart }
  else none

theorem find_empty (p : List κ) : (Tree.empty : Tree κ β).find p = none := rfl

theorem put_isSome_iff {t : Tree κ β} {p : List κ} {b : β} :
    (t.put p b).isSome = true ↔ t.Free p := by
  rw [Tree.put]
  split
  · rename_i h
    exact iff_of_true rfl h
  · rename_i h
    exact iff_of_false Bool.false_ne_true h

theorem files_put {t u : Tree κ β} {p : List κ} {b : β} (h : t.put p b = some u) :
    u.files = (p, b) :: t.files.filter fun f => f.1 ≠ p := by
  rw [Tree.put] at h
  split at h
  · rw [← Option.some.inj h]
  · cases h

theorem find_put {t u : Tree κ β} {p : List κ} {b : β} (h : t.put p b = some u) (q : List κ) :
    u.find q = if q = p then some b else t.find q := by
  rw [Tree.find, files_put h, List.find?_cons]
  by_cases hq : q = p
  · rw [if_pos hq, hq, decide_eq_true rfl]
    rfl
  · have hp : ¬ p = q := fun he => hq he.symm
    rw [if_neg hq, decide_eq_false hp, Tree.find]
    simp only [List.find?_filter]
    congr 2
    funext f
    by_cases hf : f.1 = q
    · simp [hf, hq]
    · simp [hf]

theorem mem_paths_iff {t : Tree κ β} {p : List κ} : p ∈ t.paths ↔ ∃ b, t.find p = some b := by
  rw [Tree.paths, List.mem_map]
  constructor
  · rintro ⟨f, hf, rfl⟩
    have hsome : (t.files.find? fun g => g.1 = f.1).isSome = true :=
      List.find?_isSome.mpr ⟨f, hf, decide_eq_true rfl⟩
    obtain ⟨g, hg⟩ := Option.isSome_iff_exists.mp hsome
    exact ⟨g.2, by rw [Tree.find, hg]; rfl⟩
  · rintro ⟨b, hb⟩
    obtain ⟨f, hf, -⟩ := Option.map_eq_some_iff.mp hb
    exact ⟨f, List.mem_of_find?_eq_some hf, by simpa using List.find?_some hf⟩

theorem mem_paths_put {t u : Tree κ β} {p q : List κ} {b : β} (h : t.put p b = some u) :
    q ∈ u.paths ↔ q = p ∨ q ∈ t.paths := by
  rw [mem_paths_iff, mem_paths_iff, find_put h]
  by_cases hq : q = p
  · simp [hq]
  · simp [hq]

/-- Files are written one after the other. -/
def Tree.putAll (t : Tree κ β) : List (List κ × β) → Option (Tree κ β)
  | [] => some t
  | (p, b) :: rest => (t.put p b).bind fun u => u.putAll rest

variable {t u : Tree κ β} {ws : List (List κ × β)}

theorem find_putAll_of_not_mem (h : t.putAll ws = some u) {p : List κ}
    (hp : p ∉ ws.map Prod.fst) : u.find p = t.find p := by
  induction ws generalizing t with
  | nil => rw [Option.some.inj h]
  | cons w ws ih =>
    obtain ⟨v, hv, hrest⟩ := Option.bind_eq_some_iff.mp h
    obtain ⟨hne, hp⟩ := List.ne_and_not_mem_of_not_mem_cons hp
    rw [ih hrest hp, find_put hv, if_neg hne]

/-- A path that is written holds one of the contents written to it. -/
theorem find_putAll_of_mem (h : t.putAll ws = some u) {p : List κ} (hp : p ∈ ws.map Prod.fst) :
    ∃ b, (p, b) ∈ ws ∧ u.find p = some b := by
  induction ws generalizing t with
  | nil => cases hp
  | cons w ws ih =>
    obtain ⟨v, hv, hrest⟩ := Option.bind_eq_some_iff.mp h
    by_cases hlater : p ∈ ws.map Prod.fst
    · obtain ⟨b, hb, hfind⟩ := ih hrest hlater
      exact ⟨b, List.mem_cons_of_mem w hb, hfind⟩
    · obtain rfl : p = w.1 := (List.mem_cons.mp hp).resolve_right hlater
      refine ⟨w.2, List.mem_cons_self, ?_⟩
      rw [find_putAll_of_not_mem hrest hlater, find_put hv, if_pos rfl]

/-- No name is empty and none leads through another. -/
def Apart (paths : List (List κ)) : Prop :=
  [] ∉ paths ∧ ∀ p ∈ paths, ∀ q ∈ paths, p <+: q → p = q

theorem putAll_isSome_iff (hroot : [] ∉ t.paths) :
    (t.putAll ws).isSome = true ↔ Apart (ws.map Prod.fst ++ t.paths) := by
  induction ws generalizing t with
  | nil => exact iff_of_true rfl ⟨hroot, t.apart⟩
  | cons w ws ih =>
    rw [List.map_cons, List.cons_append]
    cases hput : t.put w.1 w.2 with
    | none =>
      have hnone : t.putAll (w :: ws) = none := by
        rw [Tree.putAll, hput]
        rfl
      have hfree : ¬ t.Free w.1 := by
        rw [← put_isSome_iff (b := w.2), hput]
        exact Bool.false_ne_true
      rw [hnone]
      refine iff_of_false Bool.false_ne_true fun h => hfree ⟨fun he => h.1 ?_, fun q hq hpre => ?_⟩
      · rw [he]
        exact List.mem_cons_self
      · have hmem := List.mem_cons_of_mem w.1 (List.mem_append_right (ws.map Prod.fst) hq)
        exact hpre.elim (h.2 q hmem w.1 List.mem_cons_self)
          fun hqr => (h.2 w.1 List.mem_cons_self q hmem hqr).symm
    | some v =>
      have hpaths (q : List κ) : q ∈ w.1 :: (ws.map Prod.fst ++ t.paths) ↔
          q ∈ ws.map Prod.fst ++ v.paths := by
        rw [List.mem_append, mem_paths_put hput, List.mem_cons, List.mem_append]
        tauto
      have hfree : t.Free w.1 := put_isSome_iff.mp (by rw [hput]; rfl)
      have hroot' : [] ∉ v.paths := fun h =>
        ((mem_paths_put hput).mp h).elim (fun he => hfree.1 he.symm) hroot
      have hstep : t.putAll (w :: ws) = v.putAll ws := by
        rw [Tree.putAll, hput]
        rfl
      rw [hstep, ih hroot', Apart, Apart]
      simp only [hpaths]

theorem find_eq_some_iff {p : List κ} {b : β} : t.find p = some b ↔ (p, b) ∈ t.files := by
  constructor
  · intro h
    obtain ⟨f, hf, rfl⟩ := Option.map_eq_some_iff.mp h
    have hp : f.1 = p := by simpa using List.find?_some hf
    exact hp ▸ List.mem_of_find?_eq_some hf
  · intro h
    obtain ⟨c, hc⟩ := mem_paths_iff.mp (List.mem_map_of_mem (f := Prod.fst) h)
    obtain ⟨f, hf, rfl⟩ := Option.map_eq_some_iff.mp hc
    have hp : f.1 = p := by simpa using List.find?_some hf
    rw [hc, List.inj_on_of_nodup_map t.nodup (List.mem_of_find?_eq_some hf) h hp]

/-- A directory is removed with all below it. -/
def Tree.prune (t : Tree κ β) (d : List κ) : Tree κ β where
  files := t.files.filter fun f => ¬ d <+: f.1
  nodup := t.nodup.sublist (List.filter_sublist.map Prod.fst)
  apart p hp q hq := t.apart p ((List.filter_sublist.map Prod.fst).subset hp) q
    ((List.filter_sublist.map Prod.fst).subset hq)

theorem find_prune (d p : List κ) : (t.prune d).find p = if d <+: p then none else t.find p := by
  rw [Tree.find, Tree.prune, List.find?_filter]
  split
  · rename_i hd
    rw [Option.map_eq_none_iff, List.find?_eq_none]
    intro f _ hf
    have hboth := of_decide_eq_true hf
    exact of_decide_eq_true hboth.1 (of_decide_eq_true hboth.2 ▸ hd)
  · rename_i hd
    rw [Tree.find]
    congr 2
    funext f
    by_cases hf : f.1 = p
    · simp [hf, hd]
    · simp [hf]

/-- The name that a path takes when a directory is renamed. -/
def relocate (src dst p : List κ) : List κ := if src <+: p then dst ++ p.drop src.length else p

theorem relocate_append (src dst p : List κ) : relocate src dst (src ++ p) = dst ++ p := by
  rw [relocate, if_pos (List.prefix_append src p), List.drop_left]

/-- Nothing stands at a directory's new place, above it or below it. -/
def Tree.Vacant (t : Tree κ β) (dst : List κ) : Prop :=
  ∀ q ∈ t.paths, ¬ dst <+: q ∧ ¬ q <+: dst

instance (t : Tree κ β) (dst : List κ) : Decidable (t.Vacant dst) :=
  inferInstanceAs (Decidable (∀ q ∈ t.paths, _))

theorem Tree.Vacant.apart {src dst p q : List κ} (h : t.Vacant dst) (hp : p ∈ t.paths)
    (hq : q ∈ t.paths) (hpre : relocate src dst p <+: relocate src dst q) : p = q := by
  refine t.apart p hp q hq ?_
  rw [relocate, relocate] at hpre
  split at hpre
  · rename_i hsp
    obtain ⟨a, rfl⟩ := hsp
    split at hpre
    · rename_i hsq
      obtain ⟨b, rfl⟩ := hsq
      rw [List.drop_left, List.drop_left, List.prefix_append_right_inj] at hpre
      exact (List.prefix_append_right_inj src).mpr hpre
    · exact absurd ((List.prefix_append dst _).trans hpre) (h q hq).1
  · split at hpre
    · cases List.prefix_or_prefix_of_prefix hpre (List.prefix_append dst _) with
      | inl hpd => exact absurd hpd (h p hp).2
      | inr hdp => exact absurd hdp (h p hp).1
    · exact hpre

/-- A directory is renamed. -/
def Tree.move (t : Tree κ β) (src dst : List κ) : Option (Tree κ β) :=
  if h : t.Vacant dst then some
    { files := t.files.map fun f => (relocate src dst f.1, f.2)
      nodup := by
        rw [List.map_map]
        refine List.Nodup.map_on (fun f hf g hg he => ?_) (List.Nodup.of_map Prod.fst t.nodup)
        have hsame : relocate src dst f.1 = relocate src dst g.1 := he
        have hpre : relocate src dst f.1 <+: relocate src dst g.1 := by rw [hsame]
        have hp := h.apart (List.mem_map_of_mem hf) (List.mem_map_of_mem hg) hpre
        exact List.inj_on_of_nodup_map t.nodup hf hg hp
      apart := by
        rw [List.map_map]
        intro p hp q hq hpre
        obtain ⟨f, hf, rfl⟩ := List.mem_map.mp hp
        obtain ⟨g, hg, rfl⟩ := List.mem_map.mp hq
        exact congrArg (relocate src dst)
          (h.apart (List.mem_map_of_mem hf) (List.mem_map_of_mem hg) hpre) }
  else none

theorem files_move {src dst : List κ} (h : t.move src dst = some u) :
    t.Vacant dst ∧ u.files = t.files.map fun f => (relocate src dst f.1, f.2) := by
  rw [Tree.move] at h
  split at h
  · rename_i hv
    exact ⟨hv, by rw [← Option.some.inj h]⟩
  · cases h

theorem find_move {src dst p : List κ} (h : t.move src dst = some u) :
    u.find p = if dst <+: p then t.find (src ++ p.drop dst.length)
      else if src <+: p then none else t.find p := by
  obtain ⟨hv, hfiles⟩ := files_move h
  have hmem (b : β) : u.find p = some b ↔ ∃ q, relocate src dst q = p ∧ t.find q = some b := by
    rw [find_eq_some_iff, hfiles, List.mem_map]
    constructor
    · rintro ⟨f, hf, he⟩
      obtain ⟨rfl, rfl⟩ := Prod.mk.inj he
      exact ⟨f.1, rfl, find_eq_some_iff.mpr hf⟩
    · rintro ⟨q, rfl, hq⟩
      exact ⟨(q, b), find_eq_some_iff.mp hq, rfl⟩
  refine Option.ext fun b => (hmem b).trans ?_
  constructor
  · rintro ⟨q, rfl, hq⟩
    have hpath := hv q (mem_paths_iff.mpr ⟨b, hq⟩)
    by_cases hs : src <+: q
    · obtain ⟨a, rfl⟩ := hs
      rw [relocate_append, if_pos (List.prefix_append dst a), List.drop_left]
      exact hq
    · have hrel : relocate src dst q = q := if_neg hs
      rw [hrel, if_neg hpath.1, if_neg hs]
      exact hq
  · intro hb
    split at hb
    · rename_i hd
      obtain ⟨a, rfl⟩ := hd
      rw [List.drop_left] at hb
      exact ⟨src ++ a, relocate_append src dst a, hb⟩
    · split at hb
      · cases hb
      · rename_i hs
        exact ⟨p, if_neg hs, hb⟩

end NemesisBot.FileTree
