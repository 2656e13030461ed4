import NemesisBot.Cluster.SinkIndex

/-! What a call of the sink, cut short or not, and a sweep leave behind. -/
namespace NemesisBot.Transfer
open Strings FileTree ExecWorkspace

def stagedName (m : TransferBegin) : Text := sanitizeTransferId m.transferId

/-- No receipt of an earlier transfer answers for the staging directory. -/
def Grounded (s : Sink) (name : Text) : Prop := s.staging name ≠ none ∨ s.finished name = none

/-- The two differ in the staging directories only. -/
structure Aside (cfg : SinkConfig) (s s' : Sink) : Prop where
  receipts : s'.receipts = s.receipts
  index : s'.index = s.index
  saved : s'.saved = s.saved
  finished : s'.finished = s.finished
  same : ∀ t, Same cfg.inboxRoot t s.fs s'.fs

/-- The staging directories whose names are `needed` stay, or there is no receipt that could be
taken for them, or their content is in the inbox. -/
structure Moves (cfg : SinkConfig) (contents : List TransferBegin) (needed : Text → Prop)
    (s s' : Sink) : Prop where
  durable : Durable cfg contents s'
  grounded : ∀ m ∈ contents, needed (stagedName m) → Grounded s (stagedName m) →
    Grounded s' (stagedName m) ∨ Holds cfg s'.fs m
  finished : ∀ name r, s'.finished name = some r → s.finished name = some r ∨
    ∃ m ∈ contents, stagedName m = name ∧ Holds cfg s'.fs m

variable {cfg : SinkConfig} {contents : List TransferBegin} {needed : Text → Prop}
  {s s' s'' : Sink} {name : Text} {torn : Torn} {m req : TransferBegin} {k : Nat}

theorem Aside.refl (s : Sink) : Aside cfg s s := ⟨rfl, rfl, rfl, rfl, fun _ => Same.refl⟩

theorem Aside.trans (h : Aside cfg s s') (h' : Aside cfg s' s'') : Aside cfg s s'' where
  receipts := h'.receipts.trans h.receipts
  index := h'.index.trans h.index
  saved := h'.saved.trans h.saved
  finished := h'.finished.trans h.finished
  same t := (h.same t).trans (h'.same t)

theorem Aside.stage (s : Sink) (transferId : Text) (m : Option TransferBegin) :
    Aside cfg s (s.stage transferId m) := ⟨rfl, rfl, rfl, rfl, fun _ => Same.refl⟩

theorem Aside.tearStaging (s : Sink) (torn : Torn) (name : Text) :
    Aside cfg s (s.tearStaging cfg torn name) :=
  ⟨rfl, rfl, rfl, rfl, fun t => same_without (staging_ne t) torn.lost⟩

theorem Aside.clearStaging (s : Sink) (name : Text) : Aside cfg s (s.clearStaging cfg name) :=
  ⟨rfl, rfl, rfl, rfl, fun t => same_prune (staging_ne t)⟩

theorem Aside.durable (h : Aside cfg s s') (hs : Started cfg contents)
    (hg : Durable cfg contents s) (hst : Staged contents s') : Durable cfg contents s' where
  staged := hst
  saved := h.saved ▸ hg.saved.keep_all hs h.receipts h.same

theorem Aside.good (h : Aside cfg s s') (hs : Started cfg contents)
    (hg : Good cfg contents s) (hst : Staged contents s') : Good cfg contents s' where
  toDurable := h.durable hs hg.toDurable hst
  index := h.index ▸ hg.index.keep_all hs h.receipts h.same

theorem Staged.none (h : Staged contents s) (transferId : Text) :
    Staged contents (s.stage transferId none) := by
  intro name m hm
  simp only [Sink.stage, Function.update_apply] at hm
  split at hm
  · cases hm
  · exact h name m hm

theorem Staged.some (h : Staged contents s) (hm : m ∈ contents) :
    Staged contents (s.stage m.transferId m) := by
  intro name m' hm'
  simp only [Sink.stage, Function.update_apply] at hm'
  split at hm'
  · rename_i hname
    obtain rfl := Option.some.inj (Option.some.inj hm')
    exact ⟨hname.symm, hm⟩
  · exact h name m' hm'

theorem Staged.tear (h : Staged contents s) (torn : Torn) (name : Text) :
    Staged contents (s.tearStaging cfg torn name) := by
  intro name' m hm
  simp only [Sink.tearStaging, Function.update_apply] at hm
  split at hm
  · rename_i hname
    obtain ⟨held, hheld, hm⟩ := Option.map_eq_some_iff.mp hm
    split at hm
    · cases hm
    · exact hname ▸ h name m (hm ▸ hheld)
  · exact h name' m hm

theorem Staged.clear (h : Staged contents s) (name : Text) :
    Staged contents (s.clearStaging cfg name) := by
  intro name' m hm
  simp only [Sink.clearStaging, Function.update_apply] at hm
  split at hm
  · cases hm
  · exact h name' m hm

theorem stage_ne_none (s : Sink) (transferId : Text) (m : Option TransferBegin)
    (h : s.staging name ≠ none ∨ name = sanitizeTransferId transferId) :
    (s.stage transferId m).staging name ≠ none := by
  simp only [Sink.stage, Function.update_apply]
  split
  · exact Option.some_ne_none m
  · rename_i hne
    exact h.resolve_right hne

theorem tearStaging_ne_none {other : Text} (h : s.staging name ≠ none) :
    (s.tearStaging cfg torn other).staging name ≠ none := by
  simp only [Sink.tearStaging, Function.update_apply]
  split
  · rename_i hname
    rw [ne_eq, Option.map_eq_none_iff]
    exact hname ▸ h
  · exact h

theorem clearStaging_ne_none {other : Text} (hne : name ≠ other) (h : s.staging name ≠ none) :
    (s.clearStaging cfg other).staging name ≠ none := by
  simp only [Sink.clearStaging, Function.update_of_ne hne]
  exact h

/-! Calls that touch the staging directories only. -/

theorem Aside.moves (h : Aside cfg s s') (hs : Started cfg contents)
    (hg : Durable cfg contents s) (hst : Staged contents s')
    (hkept : ∀ m ∈ contents, needed (stagedName m) → s.finished (stagedName m) ≠ none →
      s.staging (stagedName m) ≠ none → s'.staging (stagedName m) ≠ none) :
    Moves cfg contents needed s s' where
  durable := h.durable hs hg hst
  grounded m hm hneeded hground := by
    by_cases hf : s.finished (stagedName m) = none
    · exact .inl (.inr (h.finished ▸ hf))
    · exact .inl (.inl (hkept m hm hneeded hf (hground.resolve_right hf)))
  finished name r hr := .inl (h.finished ▸ hr)

theorem Moves.restart (h : Moves cfg contents needed s s') :
    Moves cfg contents needed s s'.restart :=
  ⟨h.durable.restart.toDurable, h.grounded, h.finished⟩

/-- `begin` takes a staging directory away only between two of its writes. -/
theorem begin_states {c : Called TransferBeginReply} (hst : Staged contents s)
    (hreq : req ∈ contents) (h : s.begin cfg torn req = some c)
    (hk : (c.states s)[k]? = some s') : Aside cfg s s' ∧ Staged contents s' ∧
      ∀ name, s.staging name ≠ none → s'.staging name ≠ none ∨
        k = 2 ∧ name = stagedName req ∧ ((s.manifest req.transferId).any fun m =>
          m.contentHash = req.contentHash) = false := by
  have hclear : Staged contents (s.clearStaging cfg (stagedName req)) := hst.clear _
  have haside := @Aside.clearStaging cfg s (stagedName req)
  -- the manifest is written anew once the directory is there again
  have hagain (m : Option TransferBegin) (name : Text) (hname : s.staging name ≠ none) :
      ((s.clearStaging cfg (stagedName req)).stage req.transferId m).staging name ≠ none := by
    refine stage_ne_none _ _ m ?_
    by_cases he : name = stagedName req
    · exact .inr he
    · exact .inl (clearStaging_ne_none he hname)
  obtain ⟨hw, -⟩ | ⟨-, -, hw⟩ | ⟨-, hresume, hw⟩ := begin_cases h
  · rw [Called.states, hw] at hk
    obtain _ | k := k
    · obtain rfl := Option.some.inj hk
      exact ⟨.refl s, hst, fun _ h => .inl h⟩
    · cases hk
  · rw [Called.states, hw] at hk
    obtain _ | _ | _ | k := k
    · obtain rfl := Option.some.inj hk
      exact ⟨.refl s, hst, fun _ h => .inl h⟩
    · obtain rfl := Option.some.inj hk
      exact ⟨.stage s _ _, hst.none _, fun _ h => .inl (stage_ne_none s _ _ (.inl h))⟩
    · obtain rfl := Option.some.inj hk
      exact ⟨.stage s _ _, hst.some hreq, fun _ h => .inl (stage_ne_none s _ _ (.inl h))⟩
    · cases hk
  · rw [Called.states, hw] at hk
    obtain _ | _ | _ | _ | _ | k := k
    · obtain rfl := Option.some.inj hk
      exact ⟨.refl s, hst, fun _ h => .inl h⟩
    · obtain rfl := Option.some.inj hk
      exact ⟨.tearStaging s torn _, hst.tear torn _, fun _ h => .inl (tearStaging_ne_none h)⟩
    · obtain rfl := Option.some.inj hk
      refine ⟨haside, hclear, fun name hname => ?_⟩
      by_cases he : name = stagedName req
      · exact .inr ⟨rfl, he, hresume⟩
      · exact .inl (clearStaging_ne_none he hname)
    · obtain rfl := Option.some.inj hk
      exact ⟨haside.trans (.stage _ _ _), hclear.none _, fun name h => .inl (hagain none name h)⟩
    · obtain rfl := Option.some.inj hk
      exact ⟨haside.trans (.stage _ _ _), hclear.some hreq,
        fun name h => .inl (hagain (some req) name h)⟩
    · cases hk

theorem Called.states_last {ρ : Type} (c : Called ρ) (s : Sink) :
    (c.states s)[c.writes.length]? = some (c.last s) := by
  rw [Called.states, Called.last]
  cases h : c.writes using List.reverseRecOn with
  | nil => rfl
  | append_singleton ws w => simp

theorem begin_last {c : Called TransferBeginReply} (hg : Good cfg contents s)
    (hs : Started cfg contents) (hreq : req ∈ contents) (h : s.begin cfg torn req = some c) :
    Good cfg contents (c.last s) ∧ Moves cfg contents (fun _ => True) s (c.last s) ∧
      (c.reply.status = .ok → (c.last s).staging (stagedName req) ≠ none) ∧
      (c.reply.status = .dedup → Holds cfg (c.last s).fs req) := by
  obtain ⟨haside, hst, hkept⟩ := begin_states hg.staged hreq h (c.states_last s)
  refine ⟨haside.good hs hg hst, haside.moves hs hg.toDurable hst ?_, ?_, ?_⟩
  · intro m _ _ _ hm
    obtain hstays | ⟨hlen, -, hresume⟩ := hkept _ hm
    · exact hstays
    obtain ⟨hw, -⟩ | ⟨-, hre, -⟩ | ⟨-, -, hw⟩ := begin_cases h
    · rw [hw] at hlen
      cases hlen
    · rw [hresume] at hre
      cases hre
    · rw [hw] at hlen
      cases hlen
  · intro hok
    obtain ⟨-, hne, -⟩ | ⟨-, -, hw⟩ | ⟨-, -, hw⟩ := begin_cases h
    · exact absurd hok hne
    · rw [Called.last, hw]
      exact stage_ne_none s _ _ (.inr rfl)
    · rw [Called.last, hw]
      exact stage_ne_none _ _ _ (.inr rfl)
  · intro hdedup
    obtain ⟨hw, -, hd⟩ | ⟨hok, -⟩ | ⟨hok, -⟩ := begin_cases h
    · obtain ⟨hindex, hreceipt⟩ := hd hdedup
      obtain ⟨m, hm, htask, hhash, hholds⟩ := hg.index.sound _ _ hindex hreceipt
      rw [Called.last, hw]
      exact hs.holds_iff hm hreq htask hhash hholds
    · rw [hok] at hdedup
      cases hdedup
    · rw [hok] at hdedup
      cases hdedup

theorem begin_crash {c : Called TransferBeginReply} (hg : Good cfg contents s)
    (hs : Started cfg contents) (hreq : req ∈ contents) (h : s.begin cfg torn req = some c)
    (hk : (c.states s)[k]? = some s') (hclean : k = 2 → ((s.manifest req.transferId).any fun m =>
      m.contentHash = req.contentHash) = true ∨
        ¬ (s.finished (stagedName req) ≠ none ∧ needed (stagedName req))) :
    Moves cfg contents needed s s' := by
  obtain ⟨haside, hst, hkept⟩ := begin_states hg.staged hreq h hk
  refine haside.moves hs hg.toDurable hst fun m _ hneeded hf hm => ?_
  obtain hstays | ⟨htwo, hname, hresume⟩ := hkept _ hm
  · exact hstays
  · rw [hname] at hf hneeded
    obtain hre | hnot := hclean htwo
    · exact absurd (hresume.symm.trans hre) Bool.false_ne_true
    · exact absurd ⟨hf, hneeded⟩ hnot

theorem chunk_states (req : TransferChunk) (hst : Staged contents s)
    (hk : ((s.chunk cfg req).states s)[k]? = some s') : Aside cfg s s' ∧ Staged contents s' ∧
      s'.staging = s.staging := by
  obtain hw | ⟨fs, hfs, hw⟩ := @chunk_cases cfg s req
  · rw [Called.states, hw] at hk
    obtain _ | k := k
    · obtain rfl := Option.some.inj hk
      exact ⟨.refl s, hst, rfl⟩
    · cases hk
  · rw [Called.states, hw] at hk
    obtain _ | _ | k := k
    · obtain rfl := Option.some.inj hk
      exact ⟨.refl s, hst, rfl⟩
    · obtain rfl := Option.some.inj hk
      exact ⟨⟨rfl, rfl, rfl, rfl, fun t => same_put (chunkName_plain req.seq) hfs⟩, hst, rfl⟩
    · cases hk

theorem chunk_moves (req : TransferChunk) (hg : Good cfg contents s) (hs : Started cfg contents)
    (hk : ((s.chunk cfg req).states s)[k]? = some s') :
    Good cfg contents s' ∧ Moves cfg contents needed s s' := by
  obtain ⟨haside, hst, hsame⟩ := chunk_states req hg.staged hk
  exact ⟨haside.good hs hg hst, haside.moves hs hg.toDurable hst fun m _ _ _ hm => hsame ▸ hm⟩

end NemesisBot.Transfer
