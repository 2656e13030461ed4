import NemesisBot.Lib.Strings

/-! Rewrite rules that a text is put through one after the other, against all at once. -/
namespace NemesisBot.Substitute
open Strings

/-- Occurrences of `old` become `new`. -/
structure Rule (α : Type*) where
  old : List α
  new : List α
  deriving DecidableEq

variable {α : Type*} [DecidableEq α]

/-- One rule after the other, each on what the rules before it have left. -/
def applyAll (rules : List (Rule α)) (s : List α) : List α :=
  rules.foldl (fun out r => replaceAll r.old r.new out) s

/-- The rule for the front of a text. Of several the shortest pattern counts. -/
def ruleAt (rules : List (Rule α)) (s : List α) : Option (Rule α) :=
  (rules.filter fun r => r.old <+: s).argmin fun r => r.old.length

def substituteFrom (rules : List (Rule α)) : Nat → List α → List α
  | _, [] => []
  | 0, c :: rest => match ruleAt rules (c :: rest) with
    | some r => r.new ++ substituteFrom rules (r.old.length - 1) rest
    | none => c :: substituteFrom rules 0 rest
  | k + 1, _ :: rest => substituteFrom rules k rest

/-- All rules at once: the patterns of the text, taken left to right, are replaced, and what
replaces them is not looked at again. -/
def substitute (rules : List (Rule α)) (s : List α) : List α := substituteFrom rules 0 s

/-- However many of the other rules have been applied at once, one more rule finds only the
patterns of the text itself. -/
def Settled (rules : List (Rule α)) (s : List α) : Prop :=
  ∀ done r, (r :: done).Subperm rules →
    replaceAll r.old r.new (substitute done s) = substitute (r :: done) s

/-! Replacement and substitution by the front of the text. -/

theorem replaceFrom_eq_drop (old new : List α) (k : Nat) (s : List α) :
    replaceFrom old new k s = replaceAll old new (s.drop k) := by
  induction k generalizing s with
  | zero => rfl
  | succ k ih =>
    cases s with
    | nil => rfl
    | cons c s => exact ih s

theorem replaceAll_of_prefix {old : List α} (new z : List α) (h : old ≠ []) :
    replaceAll old new (old ++ z) = new ++ replaceAll old new z := by
  cases hold : old with
  | nil => exact absurd hold h
  | cons a body =>
    have hp : a :: body <+: a :: (body ++ z) := List.prefix_append (a :: body) z
    rw [List.cons_append, replaceAll, replaceFrom, if_pos hp, replaceFrom_eq_drop,
      List.length_cons, Nat.add_sub_cancel, List.drop_left]

theorem replaceAll_cons {old new : List α} {c : α} {z : List α} (h : ¬ old <+: c :: z) :
    replaceAll old new (c :: z) = c :: replaceAll old new z := by
  rw [replaceAll, replaceFrom, if_neg h]
  rfl

/-- A stretch in which no occurrence starts stays. -/
theorem replaceAll_skip {old new x z : List α}
    (h : ∀ p s, x = p ++ s → s ≠ [] → ¬ old <+: s ++ z) :
    replaceAll old new (x ++ z) = x ++ replaceAll old new z := by
  induction x with
  | nil => rfl
  | cons c x ih =>
    have hc : ¬ old <+: c :: (x ++ z) := h [] (c :: x) rfl (by simp)
    rw [List.cons_append, replaceAll_cons hc, ih fun p s hs => h (c :: p) s (by rw [hs]; rfl)]
    rfl

/-- No occurrence lies across the seam. -/
def Apart (old x z : List α) : Prop :=
  ∀ u v, old = u ++ v → u ≠ [] → v ≠ [] → u <:+ x → ¬ v <+: z

theorem replaceAll_append {old : List α} (new : List α) {x z : List α} (hold : old ≠ [])
    (h : Apart old x z) :
    replaceAll old new (x ++ z) = replaceAll old new x ++ replaceAll old new z := by
  induction hn : x.length using Nat.strong_induction_on generalizing x with
  | _ n ih =>
    cases x with
    | nil => rfl
    | cons c x =>
      by_cases hp : old <+: c :: x
      · obtain ⟨rest, hrest⟩ := hp
        have hlt : rest.length < n := by
          have hlen := congrArg List.length hrest
          have hpos := List.length_pos_iff.mpr hold
          rw [List.length_append] at hlen
          omega
        have hsuf : rest <:+ c :: x := ⟨old, hrest⟩
        have hr := ih rest.length hlt (fun u v he hu hv hux => h u v he hu hv (hux.trans hsuf)) rfl
        rw [← hrest, List.append_assoc, replaceAll_of_prefix new _ hold,
          replaceAll_of_prefix new _ hold, hr, List.append_assoc]
      · have hp' : ¬ old <+: c :: (x ++ z) := by
          intro hpre
          obtain hle | ⟨v, hv⟩ := List.prefix_or_prefix_of_prefix hpre
            (List.prefix_append (c :: x) z)
          · exact hp hle
          · have hvz : v <+: z := by
              rw [← hv] at hpre
              exact (List.prefix_append_right_inj (c :: x)).mp hpre
            by_cases hne : v = []
            · exact hp ⟨[], by rw [← hv, hne, List.append_nil, List.append_nil]⟩
            · exact h (c :: x) v hv.symm (by simp) hne List.suffix_rfl hvz
        have hr := ih x.length (by rw [← hn]; simp)
          (fun u v he hu hv hux => h u v he hu hv (hux.trans (List.suffix_cons c x))) rfl
        rw [List.cons_append, replaceAll_cons hp', replaceAll_cons hp, hr]
        rfl

/-- A replacement that holds a symbol less often changes nothing or leaves fewer of them. -/
theorem count_replaceAll {old new : List α} {a : α} (h : new.count a < old.count a)
    (s : List α) : replaceAll old new s = s ∨ (replaceAll old new s).count a < s.count a := by
  have hne : old ≠ [] := by
    rintro rfl
    simp at h
  induction hn : s.length using Nat.strong_induction_on generalizing s with
  | _ n ih =>
    cases s with
    | nil => exact Or.inl rfl
    | cons c z =>
      by_cases hp : old <+: c :: z
      · obtain ⟨rest, hrest⟩ := hp
        have hlt : rest.length < n := by
          have hlen := congrArg List.length hrest
          have hpos := List.length_pos_iff.mpr hne
          rw [List.length_append] at hlen
          omega
        have hle : (replaceAll old new rest).count a ≤ rest.count a := by
          cases ih rest.length hlt rest rfl with
          | inl he => exact Nat.le_of_eq (congrArg (List.count a) he)
          | inr hless => exact Nat.le_of_lt hless
        refine Or.inr ?_
        rw [← hrest, replaceAll_of_prefix new rest hne, List.count_append, List.count_append]
        omega
      · rw [replaceAll_cons hp]
        cases ih z.length (by rw [← hn]; exact Nat.lt_succ_self _) z rfl with
        | inl he => exact Or.inl (by rw [he])
        | inr hless =>
          refine Or.inr ?_
          rw [List.count_cons, List.count_cons]
          omega

theorem count_applyAll {rules : List (Rule α)} {a : α}
    (h : ∀ r ∈ rules, r.new.count a < r.old.count a) (s : List α) :
    applyAll rules s = s ∨ (applyAll rules s).count a < s.count a := by
  induction rules generalizing s with
  | nil => exact Or.inl rfl
  | cons r rules ih =>
    have hrest := ih (fun r' hr' => h r' (List.mem_cons_of_mem r hr')) (replaceAll r.old r.new s)
    rw [applyAll, List.foldl_cons, ← applyAll]
    obtain he | hless := count_replaceAll (h r List.mem_cons_self) s
    · rwa [he] at hrest ⊢
    · refine Or.inr ?_
      cases hrest with
      | inl he => rwa [he]
      | inr hrest => exact Nat.lt_trans hrest hless

theorem ruleAt_mem {rules : List (Rule α)} {s : List α} {r : Rule α}
    (h : ruleAt rules s = some r) : r ∈ rules ∧ r.old <+: s := by
  have hm := List.argmin_mem (show r ∈ ruleAt rules s from h)
  obtain ⟨hr, hp⟩ := List.mem_filter.mp hm
  exact ⟨hr, of_decide_eq_true hp⟩

theorem ruleAt_eq_none {rules : List (Rule α)} {s : List α} :
    ruleAt rules s = none ↔ ∀ r ∈ rules, ¬ r.old <+: s := by
  rw [ruleAt, List.argmin_eq_none, List.filter_eq_nil_iff]
  simp only [decide_eq_true_eq]

theorem ruleAt_eq_some {rules : List (Rule α)} (hn : (rules.map Rule.old).Nodup)
    {s : List α} {r : Rule α} : ruleAt rules s = some r ↔
      r ∈ rules ∧ r.old <+: s ∧ ∀ r' ∈ rules, r'.old <+: s → r.old.length ≤ r'.old.length := by
  constructor
  · intro h
    obtain ⟨hr, hp⟩ := ruleAt_mem h
    refine ⟨hr, hp, fun r' hr' hp' => ?_⟩
    exact List.le_of_mem_argmin (f := fun r : Rule α => r.old.length)
      (List.mem_filter.mpr ⟨hr', decide_eq_true hp'⟩) h
  · rintro ⟨hr, hp, hmin⟩
    cases hat : ruleAt rules s with
    | none => exact absurd hp (ruleAt_eq_none.mp hat r hr)
    | some r' =>
      obtain ⟨hr', hp'⟩ := ruleAt_mem hat
      have hle := List.le_of_mem_argmin
        (List.mem_filter.mpr ⟨hr, decide_eq_true hp⟩) (show r' ∈ ruleAt rules s from hat)
      have hold : r'.old = r.old :=
        (List.prefix_of_prefix_length_le hp' hp hle).eq_of_length
          (Nat.le_antisymm hle (hmin r' hr' hp'))
      rw [List.inj_on_of_nodup_map hn hr' hr hold]

theorem ruleAt_perm {rules rules' : List (Rule α)} (hn : (rules.map Rule.old).Nodup)
    (hp : rules.Perm rules') (s : List α) : ruleAt rules s = ruleAt rules' s := by
  have hn' : (rules'.map Rule.old).Nodup := (hp.map Rule.old).nodup_iff.mp hn
  refine Option.ext fun r => ?_
  rw [ruleAt_eq_some hn, ruleAt_eq_some hn']
  simp only [hp.mem_iff]

/-- The order of the rules does not matter when they are applied at once. -/
theorem substitute_perm {rules rules' : List (Rule α)} (hn : (rules.map Rule.old).Nodup)
    (hp : rules.Perm rules') (s : List α) : substitute rules s = substitute rules' s := by
  have hfrom (k : Nat) : substituteFrom rules k s = substituteFrom rules' k s := by
    induction s generalizing k with
    | nil => cases k <;> rfl
    | cons c s ih =>
      cases k with
      | zero =>
        rw [substituteFrom, substituteFrom, ruleAt_perm hn hp]
        cases ruleAt rules' (c :: s) with
        | none => simp only [ih 0]
        | some r => simp only [ih (r.old.length - 1)]
      | succ k => exact ih k
  exact hfrom 0

theorem substituteFrom_eq_drop (rules : List (Rule α)) (k : Nat) (s : List α) :
    substituteFrom rules k s = substitute rules (s.drop k) := by
  induction k generalizing s with
  | zero => rfl
  | succ k ih =>
    cases s with
    | nil => rfl
    | cons c s => exact ih s

theorem substitute_cons {rules : List (Rule α)} {c : α} {z : List α}
    (h : ∀ r ∈ rules, ¬ r.old <+: c :: z) :
    substitute rules (c :: z) = c :: substitute rules z := by
  rw [substitute, substituteFrom, ruleAt_eq_none.mpr h]
  rfl

theorem substitute_of_ruleAt {rules : List (Rule α)} {r : Rule α} {z : List α} (hne : r.old ≠ [])
    (h : ruleAt rules (r.old ++ z) = some r) :
    substitute rules (r.old ++ z) = r.new ++ substitute rules z := by
  cases hold : r.old with
  | nil => exact absurd hold hne
  | cons a body =>
    rw [hold, List.cons_append] at h
    rw [List.cons_append, substitute, substituteFrom, h]
    simp only
    rw [substituteFrom_eq_drop, hold, List.length_cons, Nat.add_sub_cancel, List.drop_left]

theorem substitute_skip {rules : List (Rule α)} {x z : List α}
    (h : ∀ p s, x = p ++ s → s ≠ [] → ∀ r ∈ rules, ¬ r.old <+: s ++ z) :
    substitute rules (x ++ z) = x ++ substitute rules z := by
  induction x with
  | nil => rfl
  | cons c x ih =>
    have hc : ∀ r ∈ rules, ¬ r.old <+: c :: (x ++ z) := h [] (c :: x) rfl (by simp)
    rw [List.cons_append, substitute_cons hc, ih fun p s hs => h (c :: p) s (by rw [hs]; rfl)]
    rfl

@[simp] theorem substitute_nil (s : List α) : substitute [] s = s := by
  have hs : substitute [] (s ++ []) = s ++ substitute [] [] := substitute_skip (by simp)
  rw [List.append_nil] at hs
  exact hs.trans (List.append_nil s)

/-! Settled rules give the same text in every order. -/

theorem applyAll_concat (rules : List (Rule α)) (r : Rule α) (s : List α) :
    applyAll (rules ++ [r]) s = replaceAll r.old r.new (applyAll rules s) := by
  rw [applyAll, List.foldl_append]
  rfl

omit [DecidableEq α] in
theorem olds_nodup {part rules : List (Rule α)} (h : part.Subperm rules)
    (hn : (rules.map Rule.old).Nodup) : (part.map Rule.old).Nodup := by
  obtain ⟨kept, hperm, hsub⟩ := h
  exact (hperm.map Rule.old).nodup_iff.mp (hn.sublist (hsub.map Rule.old))

theorem Settled.applyAll {rules : List (Rule α)} {s : List α} (h : Settled rules s)
    (hn : (rules.map Rule.old).Nodup) {order : List (Rule α)} (ho : order.Subperm rules) :
    applyAll order s = substitute order s := by
  induction order using List.reverseRecOn with
  | nil => simp [Substitute.applyAll]
  | append_singleton done r ih =>
    have hswap : (done ++ [r]).Perm (r :: done) := List.perm_append_singleton r done
    have hsub : (r :: done).Subperm rules := hswap.symm.subperm.trans ho
    rw [applyAll_concat, ih ((List.sublist_append_left done [r]).subperm.trans ho),
      h done r hsub, substitute_perm (olds_nodup ho hn) hswap]

/-- Settled rules are those that every part of which gives the same text in every order, the
one that its rules give at once. -/
theorem settled_iff {rules : List (Rule α)} (hn : (rules.map Rule.old).Nodup) (s : List α) :
    (∀ part : List (Rule α), part.Subperm rules → applyAll part s = substitute part s) ↔ Settled rules s := by
  refine ⟨fun h done r hsub => ?_, fun h part hpart => h.applyAll hn hpart⟩
  have hswap : (done ++ [r]).Perm (r :: done) := List.perm_append_singleton r done
  have hpart : (done ++ [r]).Subperm rules := hswap.subperm.trans hsub
  rw [← h done ((List.sublist_cons_self r done).subperm.trans hsub), ← applyAll_concat,
    h _ hpart, substitute_perm (olds_nodup hpart hn) hswap]

/-! Patterns that open with one symbol twice and do not hold it again, none of which begins
another. Two of them cannot overlap. -/

structure Delimited (o : α) (rules : List (Rule α)) : Prop where
  shape : ∀ r ∈ rules, ∃ body, r.old = o :: o :: body ∧ body ≠ [] ∧ o ∉ body
  prefix_free : ∀ r ∈ rules, ∀ r' ∈ rules, r.old <+: r'.old → r = r'

variable {o : α} {rules : List (Rule α)}

omit [DecidableEq α] in
theorem Delimited.ne_nil (h : Delimited o rules) {r : Rule α} (hr : r ∈ rules) : r.old ≠ [] := by
  obtain ⟨body, hold, -, -⟩ := h.shape r hr
  rw [hold]
  exact List.cons_ne_nil o (o :: body)

omit [DecidableEq α] in
theorem Delimited.eq_of_prefix (h : Delimited o rules) {r r' : Rule α} (hr : r ∈ rules)
    (hr' : r' ∈ rules) {s : List α} (hp : r.old <+: s) (hp' : r'.old <+: s) : r = r' := by
  obtain hle | hle := List.prefix_or_prefix_of_prefix hp hp'
  · exact h.prefix_free r hr r' hr' hle
  · exact (h.prefix_free r' hr' r hr hle).symm

omit [DecidableEq α] in
/-- What is left of a pattern behind its first symbol does not open with the symbol twice. -/
theorem Delimited.tail (h : Delimited o rules) {r : Rule α} (hr : r ∈ rules) {u v : List α}
    (hold : r.old = u ++ v) (hu : u ≠ []) (hv : v ≠ []) :
    (∃ body, u = [o] ∧ v = o :: body ∧ body ≠ [] ∧ o ∉ body) ∨ ∃ d w, v = d :: w ∧ d ≠ o := by
  obtain ⟨body, hshape, hne, hno⟩ := h.shape r hr
  rw [hshape] at hold
  cases u with
  | nil => exact absurd rfl hu
  | cons c u =>
    obtain ⟨rfl, hrest⟩ := List.cons.inj hold
    cases u with
    | nil => exact Or.inl ⟨body, rfl, hrest.symm, hne, hno⟩
    | cons c' u =>
      obtain ⟨rfl, hbody⟩ := List.cons.inj hrest
      cases v with
      | nil => exact absurd rfl hv
      | cons d w =>
        refine Or.inr ⟨d, w, rfl, ?_⟩
        rintro rfl
        exact hno (by rw [hbody]; simp)

omit [DecidableEq α] in
/-- A pattern does not reach into another one. -/
theorem Delimited.apart (h : Delimited o rules) {r r' : Rule α} (hr : r ∈ rules)
    (hr' : r' ∈ rules) (x z : List α) : Apart r.old x (r'.old ++ z) := by
  intro u v hold hu hv _ hvz
  obtain ⟨body', hshape', hne', hno'⟩ := h.shape r' hr'
  rw [hshape'] at hvz
  obtain ⟨body, -, rfl, hne, hno⟩ | ⟨d, w, rfl, hd⟩ := h.tail hr hold hu hv
  · obtain ⟨-, hp⟩ := List.cons_prefix_cons.mp hvz
    cases body with
    | nil => exact hne rfl
    | cons d w =>
      obtain ⟨rfl, -⟩ := List.cons_prefix_cons.mp hp
      exact hno List.mem_cons_self
  · exact hd (List.cons_prefix_cons.mp hvz).1

omit [DecidableEq α] in
/-- No pattern starts within another one. -/
theorem Delimited.inside (h : Delimited o rules) {r r' : Rule α} (hr : r ∈ rules)
    (hr' : r' ∈ rules) (hne : r ≠ r') {p s z : List α} (hold : r'.old = p ++ s) (hs : s ≠ []) :
    ¬ r.old <+: s ++ z := by
  intro hp
  by_cases hpn : p = []
  · subst hpn
    rw [List.nil_append] at hold
    rw [← hold] at hp
    exact hne (h.eq_of_prefix hr hr' hp (List.prefix_append r'.old z))
  · obtain ⟨body, hshape, -, -⟩ := h.shape r hr
    rw [hshape] at hp
    obtain ⟨body', -, rfl, hne', hno'⟩ | ⟨d, w, rfl, hd⟩ := h.tail hr' hold hpn hs
    · obtain ⟨-, hp⟩ := List.cons_prefix_cons.mp hp
      cases body' with
      | nil => exact hne' rfl
      | cons d w =>
        obtain ⟨rfl, -⟩ := List.cons_prefix_cons.mp hp
        exact hno' List.mem_cons_self
    · exact hd (List.cons_prefix_cons.mp hp).1.symm

theorem Delimited.replaceAll_of_ne (h : Delimited o rules) {r r' : Rule α} (hr : r ∈ rules)
    (hr' : r' ∈ rules) (hne : r ≠ r') (x z : List α) :
    replaceAll r.old r.new (x ++ (r'.old ++ z)) =
      replaceAll r.old r.new x ++ (r'.old ++ replaceAll r.old r.new z) := by
  rw [replaceAll_append r.new (h.ne_nil hr) (h.apart hr hr' x z),
    replaceAll_skip fun p s hold hs => h.inside hr hr' hne hold hs]

theorem Delimited.replaceAll_self (h : Delimited o rules) {r : Rule α} (hr : r ∈ rules)
    (x z : List α) : replaceAll r.old r.new (x ++ (r.old ++ z)) =
      replaceAll r.old r.new x ++ (r.new ++ replaceAll r.old r.new z) := by
  rw [replaceAll_append r.new (h.ne_nil hr) (h.apart hr hr x z),
    replaceAll_of_prefix r.new z (h.ne_nil hr)]

theorem Delimited.substitute_mem (h : Delimited o rules) {done : List (Rule α)}
    (hsub : done ⊆ rules) {r : Rule α} (hr : r ∈ done) (z : List α) :
    substitute done (r.old ++ z) = r.new ++ substitute done z := by
  refine substitute_of_ruleAt (h.ne_nil (hsub hr)) ?_
  cases hat : ruleAt done (r.old ++ z) with
  | none => exact absurd (List.prefix_append r.old z) (ruleAt_eq_none.mp hat r hr)
  | some r' =>
    obtain ⟨hr', hp⟩ := ruleAt_mem hat
    rw [h.eq_of_prefix (hsub hr') (hsub hr) hp (List.prefix_append r.old z)]

theorem Delimited.substitute_not_mem (h : Delimited o rules) {done : List (Rule α)}
    (hsub : done ⊆ rules) {r : Rule α} (hr : r ∈ rules) (hn : r ∉ done) (z : List α) :
    substitute done (r.old ++ z) = r.old ++ substitute done z := by
  refine substitute_skip fun p s hold hs r' hr' => ?_
  exact h.inside (hsub hr') hr (fun he => hn (he ▸ hr')) hold hs

/-- A text is read as patterns and single symbols. -/
@[elab_as_elim]
theorem Delimited.scan (h : Delimited o rules) {motive : List α → Prop} (nil : motive [])
    (hole : ∀ r ∈ rules, ∀ z, motive z → motive (r.old ++ z))
    (raw : ∀ a z, (∀ r ∈ rules, ¬ r.old <+: a :: z) → motive z → motive (a :: z))
    (s : List α) : motive s := by
  induction hn : s.length using Nat.strong_induction_on generalizing s with
  | _ n ih =>
    cases s with
    | nil => exact nil
    | cons a z =>
      by_cases hp : ∃ r ∈ rules, r.old <+: a :: z
      · obtain ⟨r, hr, rest, hrest⟩ := hp
        have hlen := congrArg List.length hrest
        have hpos := List.length_pos_iff.mpr (h.ne_nil hr)
        rw [List.length_append] at hlen
        rw [← hrest]
        exact hole r hr rest (ih rest.length (by omega) rest rfl)
      · refine raw a z (fun r hr hpre => hp ⟨r, hr, hpre⟩) (ih z.length ?_ z rfl)
        rw [← hn]
        exact Nat.lt_succ_self _

/-- The front of a text with some of the patterns filled in stays when all are, up to the
next doubled symbol. -/
theorem Delimited.prefix_stays (h : Delimited o rules) {done : List (Rule α)}
    (hsub : done ⊆ rules) {w s : List α} (hw : ¬ [o, o] <:+: w) (hend : w.getLast? ≠ some o)
    (hp : w <+: substitute done s) : w <+: substitute rules s := by
  induction s using h.scan generalizing w with
  | nil => exact hp
  | hole r hr z ih =>
    rw [h.substitute_mem (fun _ hm => hm) hr]
    by_cases hd : r ∈ done
    · rw [h.substitute_mem hsub hd] at hp
      obtain hle | ⟨v, rfl⟩ := List.prefix_or_prefix_of_prefix hp (List.prefix_append r.new _)
      · exact hle.trans (List.prefix_append r.new _)
      · have hv := (List.prefix_append_right_inj r.new).mp hp
        refine (List.prefix_append_right_inj r.new).mpr (ih ?_ ?_ hv)
        · exact fun hoo => hw (hoo.trans (List.suffix_append r.new v).isInfix)
        · cases v with
          | nil => simp
          | cons a v => rwa [List.getLast?_append_cons] at hend
    · rw [h.substitute_not_mem hsub hr hd] at hp
      obtain ⟨body, hshape, -, -⟩ := h.shape r hr
      rw [hshape] at hp
      -- the pattern that is still there opens with the symbol twice
      cases w with
      | nil => exact List.nil_prefix
      | cons a w =>
        obtain ⟨rfl, hp⟩ := List.cons_prefix_cons.mp hp
        cases w with
        | nil => exact absurd rfl hend
        | cons b w =>
          obtain ⟨rfl, -⟩ := List.cons_prefix_cons.mp hp
          exact absurd ⟨[], w, rfl⟩ hw
  | raw a z hraw ih =>
    rw [substitute_cons fun r hr => hraw r (hsub hr)] at hp
    rw [substitute_cons hraw]
    cases w with
    | nil => exact List.nil_prefix
    | cons b w =>
      obtain ⟨rfl, htail⟩ := List.cons_prefix_cons.mp hp
      refine List.cons_prefix_cons.mpr ⟨rfl, ih ?_ ?_ htail⟩
      · exact fun hoo => hw (hoo.trans (List.suffix_cons b w).isInfix)
      · cases w with
        | nil => simp
        | cons b' w => rwa [List.getLast?_cons_cons] at hend

/-- A pattern that starts in what has been filled in doubles the symbol in the end. -/
theorem Delimited.not_prefix_of_clear (h : Delimited o rules) {done : List (Rule α)}
    (hsub : done ⊆ rules) {r : Rule α} (hr : r ∈ rules) {x z : List α} (hx : x ≠ [])
    (hclear : ¬ [o, o] <:+: x ++ substitute rules z) : ¬ r.old <+: x ++ substitute done z := by
  obtain ⟨body, hshape, hne, hno⟩ := h.shape r hr
  rw [hshape]
  intro hp
  cases x with
  | nil => exact hx rfl
  | cons a x =>
    obtain ⟨rfl, htail⟩ := List.cons_prefix_cons.mp hp
    cases x with
    | cons b x =>
      obtain ⟨rfl, _⟩ := List.cons_prefix_cons.mp htail
      exact hclear ⟨[], x ++ substitute rules z, rfl⟩
    | nil =>
      -- one symbol, and the next one opens what has been filled in behind it
      cases body with
      | nil => exact hne rfl
      | cons d w =>
        have hd : d ≠ o := fun he => hno (he ▸ List.mem_cons_self)
        have hfront : [o, d] <+: substitute done z := List.IsPrefix.trans ⟨w, rfl⟩ htail
        have hstays : [o, d] <+: substitute rules z := by
          refine h.prefix_stays hsub ?_ (by simpa using hd) hfront
          intro hoo
          have he := hoo.eq_of_length rfl
          exact hd (List.cons.inj (List.cons.inj he).2).1.symm
        obtain ⟨y, hy⟩ := hstays
        exact hclear ⟨[], d :: y, by rw [← hy]; rfl⟩

/-- If filling in all patterns at once doubles the symbol nowhere, the rules are settled. -/
theorem Delimited.settled_of_clear (h : Delimited o rules) (hn : rules.Nodup) {s : List α}
    (hclear : ¬ [o, o] <:+: substitute rules s) : Settled rules s := by
  intro done r hpart
  have hsub : done ⊆ rules := fun x hx => hpart.subset (List.mem_cons_of_mem r hx)
  have hr : r ∈ rules := hpart.subset List.mem_cons_self
  have hsub' : r :: done ⊆ rules := hpart.subset
  have hrd : r ∉ done := by
    obtain ⟨kept, hperm, hkept⟩ := hpart
    exact (List.nodup_cons.mp (hperm.nodup_iff.mp (hn.sublist hkept))).1
  induction s using h.scan with
  | nil => rfl
  | hole r' hr' z ih =>
    rw [h.substitute_mem (fun _ hm => hm) hr'] at hclear
    have hz := ih fun hoo => hclear (hoo.trans (List.suffix_append _ _).isInfix)
    by_cases he : r' = r
    · subst he
      rw [h.substitute_not_mem hsub hr' hrd, h.substitute_mem hsub' List.mem_cons_self,
        replaceAll_of_prefix _ _ (h.ne_nil hr'), hz]
    · by_cases hd : r' ∈ done
      · rw [h.substitute_mem hsub hd, h.substitute_mem hsub' (List.mem_cons_of_mem r hd)]
        rw [replaceAll_skip, hz]
        intro p x hx hne
        refine h.not_prefix_of_clear hsub hr hne fun hoo => hclear (hoo.trans ?_)
        rw [hx, List.append_assoc]
        exact (List.suffix_append p _).isInfix
      · have hn' : r' ∉ r :: done := by simp [he, hd]
        rw [h.substitute_not_mem hsub hr' hd, h.substitute_not_mem hsub' hr' hn',
          replaceAll_skip, hz]
        exact fun p x hold hx => h.inside hr hr' (Ne.symm he) hold hx
  | raw a z hraw ih =>
    rw [substitute_cons hraw] at hclear
    have hz := ih fun hoo => hclear (hoo.trans (List.suffix_cons a _).isInfix)
    rw [substitute_cons fun x hx => hraw x (hsub hx),
      substitute_cons fun x hx => hraw x (hsub' hx), replaceAll_cons, hz]
    exact h.not_prefix_of_clear hsub hr (x := [a]) (by simp) hclear

/-- Behind a pattern the rules work as if nothing stood before it, until its own turn. -/
theorem Delimited.applyAll_around (h : Delimited o rules) {r : Rule α} (hr : r ∈ rules)
    {part : List (Rule α)} (hsub : part ⊆ rules) (hn : r ∉ part) (x z : List α) :
    applyAll part (x ++ (r.old ++ z)) = applyAll part x ++ (r.old ++ applyAll part z) := by
  induction part using List.reverseRecOn with
  | nil => rfl
  | append_singleton part f ih =>
    have hf : f ∈ rules := hsub (by simp)
    have hne : f ≠ r := fun he => hn (by simp [he])
    have hi := ih (fun g hg => hsub (by simp [hg])) fun hm => hn (by simp [hm])
    rw [applyAll_concat, applyAll_concat, applyAll_concat, hi, h.replaceAll_of_ne hf hr hne]

/-- Behind a single symbol likewise, as long as no rule applies at the symbol. -/
theorem Delimited.applyAll_behind (h : Delimited o rules) (hn : (rules.map Rule.old).Nodup)
    {y z : List α} (hz : substitute rules z = o :: y) (hclear : ¬ [o, o] <:+: substitute rules z)
    {order : List (Rule α)} (ho : order.Perm rules)
    (hfree : ∀ done f, done ++ [f] <+: order → ¬ f.old <+: o :: substitute done z) (x : List α)
    {done : List (Rule α)} (hd : done <+: order) :
    ∃ x', applyAll done (x ++ o :: z) = x' ++ o :: substitute done z := by
  have hsettled := h.settled_of_clear hn.of_map hclear
  have hall {part : List (Rule α)} (hp : part <+: order) :
      applyAll part z = substitute part z :=
    hsettled.applyAll hn (hp.sublist.subperm.trans ho.subperm)
  induction done using List.reverseRecOn with
  | nil => exact ⟨x, by simp [applyAll]⟩
  | append_singleton done f ih =>
    have hdone : done <+: order := (List.prefix_append done [f]).trans hd
    have hsub : done ⊆ rules := fun g hg => ho.mem_iff.mp (hdone.subset hg)
    have hf : f ∈ rules := ho.mem_iff.mp (hd.subset (by simp))
    obtain ⟨x', hx'⟩ := ih hdone
    refine ⟨replaceAll f.old f.new x', ?_⟩
    have hapart : Apart f.old x' (o :: substitute done z) := by
      intro u v hold hu hv _ hvz
      obtain ⟨body, -, rfl, hne, hno⟩ | ⟨d, w, rfl, hdo⟩ := h.tail hf hold hu hv
      · cases body with
        | nil => exact hne rfl
        | cons d w =>
          have hdo : d ≠ o := fun he => hno (he ▸ List.mem_cons_self)
          have hfront : [d] <+: substitute done z :=
            List.IsPrefix.trans ⟨w, rfl⟩ (List.cons_prefix_cons.mp hvz).2
          have hstays := h.prefix_stays hsub (fun hoo => by simpa using hoo.length_le)
            (by simpa using hdo) hfront
          rw [hz] at hstays
          exact hdo (List.cons_prefix_cons.mp hstays).1
      · exact hdo (List.cons_prefix_cons.mp hvz).1
    rw [applyAll_concat, hx', replaceAll_append f.new (h.ne_nil hf) hapart,
      replaceAll_cons (hfree done f hd), ← hall hdone, ← applyAll_concat, hall hd]

/-- A rule that would apply at the symbol in the end is the first one of the order. It finds
nothing there yet. -/
theorem Delimited.free_order (h : Delimited o rules) (hn : rules.Nodup) {z : List α}
    (hraw : ∀ r ∈ rules, ¬ r.old <+: o :: z) :
    ∃ order, order.Perm rules ∧
      ∀ done f, done ++ [f] <+: order → ¬ f.old <+: o :: substitute done z := by
  have hlater {done : List (Rule α)} {f : Rule α} (hsub : done ⊆ rules) (hf : f ∈ rules)
      (hp : f.old <+: o :: substitute done z) : f.old <+: o :: substitute rules z := by
    obtain ⟨body, hshape, hne, hno⟩ := h.shape f hf
    rw [hshape] at hp ⊢
    refine List.cons_prefix_cons.mpr ⟨rfl, h.prefix_stays hsub ?_ ?_
      (List.cons_prefix_cons.mp hp).2⟩
    · rintro ⟨u, v, huv⟩
      cases u with
      | nil => exact hno (by rw [← (List.cons.inj huv).2]; simp)
      | cons b u => exact hno (by rw [← (List.cons.inj huv).2]; simp)
    · rw [List.getLast?_cons_of_ne_nil hne]
      exact fun he => hno (List.mem_of_getLast? he)
  by_cases he : ∃ e ∈ rules, e.old <+: o :: substitute rules z
  · obtain ⟨e, he, hpe⟩ := he
    refine ⟨e :: rules.erase e, (List.perm_cons_erase he).symm, fun done f hd hp => ?_⟩
    have hsub : done ++ [f] ⊆ rules := fun g hg =>
      (List.perm_cons_erase he).mem_iff.mpr (hd.subset hg)
    have hf : f ∈ rules := hsub (by simp)
    have hdone : done ⊆ rules := fun g hg => hsub (by simp [hg])
    obtain rfl : f = e := h.eq_of_prefix hf he (hlater hdone hf hp) hpe
    cases done with
    | nil => exact hraw f hf (by simpa using hp)
    | cons g done =>
      have hin : f ∈ rules.erase f := (List.cons_prefix_cons.mp hd).2.subset (by simp)
      exact ((hn.mem_erase_iff).mp hin).1 rfl
  · refine ⟨rules, .refl _, fun done f hd hp => he ⟨f, hd.subset (by simp), ?_⟩⟩
    exact hlater (fun g hg => hd.subset (by simp [hg])) (hd.subset (by simp)) hp

/-- If filling in all patterns at once doubles the symbol, it stays doubled in some order,
whatever stands before the text. -/
theorem Delimited.exists_order (h : Delimited o rules) (hn : (rules.map Rule.old).Nodup)
    {s : List α} (hoo : [o, o] <:+: substitute rules s) :
    ∃ order, order.Perm rules ∧ ∀ x, [o, o] <:+: applyAll order (x ++ s) := by
  induction s using h.scan with
  | nil =>
    have hlen := hoo.length_le
    simp [substitute, substituteFrom] at hlen
  | hole r hr z ih =>
    by_cases hz : [o, o] <:+: substitute rules z
    · obtain ⟨order, ho, hall⟩ := ih hz
      refine ⟨order, ho, fun x => ?_⟩
      rw [← List.append_assoc]
      exact hall (x ++ r.old)
    · -- the last marker stands in this value or at its end: its own rule comes last
      have hlast : (rules.erase r ++ [r]).Perm rules :=
        (List.perm_append_singleton r _).trans (List.perm_cons_erase hr).symm
      have hr' : r ∉ rules.erase r := fun hm => (hn.of_map.mem_erase_iff.mp hm).1 rfl
      refine ⟨rules.erase r ++ [r], hlast, fun x => ?_⟩
      have hend : applyAll (rules.erase r ++ [r]) z = substitute rules z := by
        rw [(h.settled_of_clear hn.of_map hz).applyAll hn hlast.subperm]
        exact substitute_perm (olds_nodup hlast.subperm hn) hlast z
      rw [applyAll_concat] at hend
      rw [applyAll_concat, h.applyAll_around hr List.erase_subset hr', h.replaceAll_self hr,
        hend, ← h.substitute_mem (fun _ hm => hm) hr]
      exact hoo.trans (List.suffix_append _ _).isInfix
  | raw a z hraw ih =>
    by_cases hz : [o, o] <:+: substitute rules z
    · obtain ⟨order, ho, hall⟩ := ih hz
      refine ⟨order, ho, fun x => ?_⟩
      have hx := hall (x ++ [a])
      rwa [List.append_assoc] at hx
    · rw [substitute_cons hraw] at hoo
      obtain hfront | hback := List.infix_cons_iff.mp hoo
      · obtain ⟨rfl, y, hy⟩ := List.cons_prefix_cons.mp hfront
        obtain ⟨order, ho, hfree⟩ := h.free_order hn.of_map hraw
        refine ⟨order, ho, fun x => ?_⟩
        obtain ⟨x', hx'⟩ := h.applyAll_behind hn hy.symm hz ho hfree x List.prefix_rfl
        rw [hx', substitute_perm (olds_nodup ho.subperm hn) ho, ← hy]
        exact ⟨x', y, by simp⟩
      · exact absurd hback hz

/-- The symbol stays doubled in no order exactly when filling in all patterns at once doubles
it nowhere. -/
theorem Delimited.clear_iff (h : Delimited o rules) (hn : (rules.map Rule.old).Nodup)
    (s : List α) : (∀ order, order.Perm rules → ¬ [o, o] <:+: applyAll order s) ↔
      ¬ [o, o] <:+: substitute rules s := by
  constructor
  · intro hall hoo
    obtain ⟨order, ho, hx⟩ := h.exists_order hn hoo
    exact hall order ho (hx [])
  · intro hclear order ho
    rw [(h.settled_of_clear hn.of_map hclear).applyAll hn ho.subperm,
      substitute_perm (olds_nodup ho.subperm hn) ho]
    exact hclear

end NemesisBot.Substitute
