import NemesisBot.Lib.Strings

/-! The choice of a node for a piece of work, and the ladder on which demands are dropped when
no node meets them all. -/
namespace NemesisBot.PeerMatcher
open Strings

structure PeerCandidate where
  id : Text
  role : Text
  tags : List Text
  capabilities : List Text
  professions : List Text
  tier : Option Text
  runtimeBackend : Option Text
  deriving DecidableEq

structure MatchInput where
  requiredRole : Option Text
  requiredTags : List Text
  requiredProfession : Option Text
  requiredCapabilities : List Text
  requiredBackend : Option Text
  description : Text

inductive RelaxDepth where
  | role
  | full
  deriving DecidableEq, Repr

def capabilityBonusCap : Nat := 15
def capabilityBonusPerHit : Nat := 5

/-- The slugs of the built-in professions, each with the lowest tier for it. -/
def catalog : List (Text × Text) :=
  [("product", "normal"), ("ui-design", "normal"), ("architecture", "big"), ("dev", "normal"),
   ("dev:cpp", "big"), ("test-whitebox", "normal"), ("test-blackbox", "normal")].map
    fun (slug, minTier) => (slug.toList, minTier.toList)

def toAsciiLowercase (s : Text) : Text := s.map Char.toLower

def eqIgnoreAsciiCase (a b : Text) : Bool := toAsciiLowercase a = toAsciiLowercase b

def normalizeSlug (slug : Text) : Text := toAsciiLowercase (trim slug)

def findBuiltin (slug : Text) : Option (Text × Text) :=
  catalog.find? fun m => m.1 = normalizeSlug slug

/-- Unknown tiers are of the lowest rank. -/
def rank (tier : Text) : Nat :=
  if tier = "mini".toList then 0
  else if tier = "normal".toList then 1
  else if tier = "big".toList then 2
  else 0

/-- A node without a tier is let through. -/
def tierAllows (nodeTier : Option Text) (minTier : Text) : Bool :=
  match nodeTier with
  | none => true
  | some node =>
    if trim node = [] then true else rank minTier ≤ rank (toAsciiLowercase (trim node))

/-- A demand, trimmed; a blank one is none. -/
def given (need : Option Text) : Option Text := (need.map trim).filter fun s => s ≠ []

structure Scored where
  id : Text
  score : Nat
  load : Nat
  deriving DecidableEq

/-- The bonus grows with every capability that the description names, up to the cap. -/
def capBonus (toLowercase : Text → Text) (descLower : Text) : Nat → List Text → Nat
  | bonus, [] => bonus
  | bonus, cap :: caps =>
    if 2 ≤ byteLen (trim cap) ∧ toLowercase (trim cap) <:+: descLower then
      if capabilityBonusCap ≤ bonus + capabilityBonusPerHit then bonus + capabilityBonusPerHit
      else capBonus toLowercase descLower (bonus + capabilityBonusPerHit) caps
    else capBonus toLowercase descLower bonus caps

section
variable (toLowercase : Text → Text) (load : Text → Nat)

/-- The hard conditions one after the other, then the score. -/
def scorePeer (input : MatchInput) (peer : PeerCandidate) : Option Scored :=
  let roleNeed := (given input.requiredRole).map toLowercase
  let profNeed := (given input.requiredProfession).map normalizeSlug
  let profMinTier := (profNeed.bind findBuiltin).map Prod.snd
  let backendNeed := (given input.requiredBackend).map toLowercase
  let tagHits := (input.requiredTags.filter fun t =>
    peer.tags.any fun pt => eqIgnoreAsciiCase pt t).length
  if roleNeed.any fun need => toLowercase peer.role ≠ need then none
  else if !input.requiredTags.isEmpty && tagHits == 0 then none
  else if profNeed.any fun need => !peer.professions.any fun p => normalizeSlug p = need then none
  else if profMinTier.any fun minTier => !tierAllows peer.tier minTier then none
  else if !input.requiredCapabilities.isEmpty && !(input.requiredCapabilities.all fun need =>
      trim need ≠ [] && peer.capabilities.any fun c => eqIgnoreAsciiCase (trim c) (trim need)) then
    none
  else if backendNeed.any fun need => !(peer.runtimeBackend.any fun b =>
      trim b ≠ [] && toLowercase (trim b) = need) then none
  else
    let bonus := capBonus toLowercase (toLowercase input.description) 0 peer.capabilities
    some ⟨peer.id, 100 * tagHits + bonus, load peer.id⟩

/-- Higher scores first, then lower loads, then the order of the identifiers. -/
def before (a b : Scored) : Bool :=
  b.score < a.score || a.score = b.score &&
    (a.load < b.load || a.load = b.load && decide (a.id ≤ b.id))

def rankPeers (input : MatchInput) (peers : List PeerCandidate) : List (Text × Nat) :=
  ((peers.filterMap (scorePeer toLowercase load input)).mergeSort before).map
    fun s => (s.id, s.score)

def pickPeer (input : MatchInput) (peers : List PeerCandidate) : Option Text :=
  (rankPeers toLowercase load input peers).head?.map Prod.fst

/-- The demands of one rung; capabilities, backend and description are those of the base. -/
def make (base : MatchInput) (role prof : Option Text) (tags : List Text) : MatchInput :=
  { base with requiredRole := role, requiredProfession := prof, requiredTags := tags }

def pickRelaxed (base : MatchInput) (peers : List PeerCandidate) (depth : RelaxDepth) :
    Option (Text × Text) :=
  let prof := given base.requiredProfession
  let withoutTags := pickPeer toLowercase load (make base base.requiredRole prof []) peers
  let withoutProf :=
    if prof.isSome then
      pickPeer toLowercase load (make base base.requiredRole none base.requiredTags) peers
    else none
  let label := if prof.isSome then "保职能松弛标签兜底" else "无标签匹配节点，保角色松弛兜底"
  match withoutTags with
  | some id => some (id, label.toList)
  | none => match withoutProf with
    | some id => some (id, "松弛职能兜底（角色/标签保留）".toList)
    | none => match depth with
      | .full => (pickPeer toLowercase load (make base none none []) peers).map fun id =>
          (id, "无匹配节点，全松弛兜底（职能/角色/标签均放开）".toList)
      | .role => none

/-! What the six hard conditions say. -/

def HasRole (input : MatchInput) (peer : PeerCandidate) : Prop :=
  ∀ need ∈ given input.requiredRole, toLowercase peer.role = toLowercase need

def HasCapabilities (input : MatchInput) (peer : PeerCandidate) : Prop :=
  ∀ need ∈ input.requiredCapabilities, trim need ≠ [] ∧
    ∃ c ∈ peer.capabilities, toAsciiLowercase (trim c) = toAsciiLowercase (trim need)

def HasBackend (input : MatchInput) (peer : PeerCandidate) : Prop :=
  ∀ need ∈ given input.requiredBackend,
    ∃ b ∈ given peer.runtimeBackend, toLowercase b = toLowercase need

structure Fits (input : MatchInput) (peer : PeerCandidate) : Prop where
  role : HasRole toLowercase input peer
  tags : input.requiredTags ≠ [] → ∃ t ∈ input.requiredTags, ∃ pt ∈ peer.tags,
    toAsciiLowercase pt = toAsciiLowercase t
  profession : ∀ need ∈ given input.requiredProfession,
    ∃ p ∈ peer.professions, normalizeSlug p = normalizeSlug need
  tier : ∀ need ∈ given input.requiredProfession, ∀ m ∈ findBuiltin (normalizeSlug need),
    ∀ node ∈ given peer.tier, rank m.2 ≤ rank (toAsciiLowercase node)
  capabilities : HasCapabilities input peer
  backend : HasBackend toLowercase input peer

theorem mem_given {need : Option Text} {s : Text} :
    s ∈ given need ↔ (∃ t ∈ need, trim t = s) ∧ s ≠ [] := by
  simp [given, Option.mem_def, Option.filter_eq_some_iff, Option.map_eq_some_iff]

theorem given_given (need : Option Text) : given (given need) = given need := by
  ext s
  rw [← Option.mem_def, ← Option.mem_def, mem_given, mem_given]
  simp only [mem_given]
  constructor
  · rintro ⟨⟨t, ⟨ht, hne⟩, rfl⟩, hs⟩
    obtain ⟨u, hu, rfl⟩ := ht
    rw [trim_trim]
    exact ⟨⟨u, hu, rfl⟩, hne⟩
  · rintro ⟨⟨t, ht, rfl⟩, hs⟩
    exact ⟨⟨trim t, ⟨⟨t, ht, rfl⟩, hs⟩, trim_trim t⟩, hs⟩

theorem tierAllows_iff {nodeTier : Option Text} {minTier : Text} :
    tierAllows nodeTier minTier = true ↔
      ∀ node ∈ given nodeTier, rank minTier ≤ rank (toAsciiLowercase node) := by
  cases nodeTier with
  | none => simp [tierAllows, given]
  | some node =>
    by_cases h : trim node = []
    · simp [tierAllows, given, h]
    · simp [tierAllows, given, h, Option.filter]

theorem isSome_ite_none {α : Type*} {c : Prop} [Decidable c] {x : Option α} :
    (if c then none else x).isSome ↔ ¬ c ∧ x.isSome := by
  by_cases h : c <;> simp [h]

theorem any_eq_false_iff {α : Type*} {o : Option α} {q : α → Bool} :
    ¬ (o.any q = true) ↔ ∀ a ∈ o, q a = false := by
  cases o <;> simp

theorem forall_mem_map {α β : Type*} {o : Option α} {f : α → β} {P : β → Prop} :
    (∀ b ∈ o.map f, P b) ↔ ∀ a ∈ o, P (f a) := by
  cases o <;> simp

theorem eqIgnoreAsciiCase_iff {a b : Text} :
    eqIgnoreAsciiCase a b = true ↔ toAsciiLowercase a = toAsciiLowercase b := by
  simp [eqIgnoreAsciiCase]

theorem any_given {o : Option Text} {q : Text → Bool} :
    (o.any fun b => trim b ≠ [] && q (trim b)) = true ↔ ∃ b ∈ given o, q b = true := by
  cases o with
  | none => simp [given]
  | some b => by_cases h : trim b = [] <;> simp [given, h, Option.filter]

/-- A peer is scored just if it meets all six conditions. -/
theorem scorePeer_isSome_iff {input : MatchInput} {peer : PeerCandidate} :
    (scorePeer toLowercase load input peer).isSome ↔ Fits toLowercase input peer := by
  unfold scorePeer
  simp only [isSome_ite_none, Option.isSome_some, and_true, any_eq_false_iff, forall_mem_map,
    decide_eq_false_iff_not, Bool.not_eq_false', ne_eq, not_not, List.any_eq_true,
    decide_eq_true_eq]
  have htags : ¬ (!input.requiredTags.isEmpty && (input.requiredTags.filter fun t =>
        peer.tags.any fun pt => eqIgnoreAsciiCase pt t).length == 0) = true ↔
      (input.requiredTags ≠ [] → ∃ t ∈ input.requiredTags, ∃ pt ∈ peer.tags,
        toAsciiLowercase pt = toAsciiLowercase t) := by
    simp [eqIgnoreAsciiCase_iff]
  have htier : (∀ m ∈ ((given input.requiredProfession).map normalizeSlug).bind findBuiltin,
        tierAllows peer.tier m.2 = true) ↔
      ∀ need ∈ given input.requiredProfession, ∀ m ∈ findBuiltin (normalizeSlug need),
        ∀ node ∈ given peer.tier, rank m.2 ≤ rank (toAsciiLowercase node) := by
    cases given input.requiredProfession <;> simp [tierAllows_iff]
  have hcaps : ¬ (!input.requiredCapabilities.isEmpty && !(input.requiredCapabilities.all
        fun need => trim need ≠ [] &&
          peer.capabilities.any fun c => eqIgnoreAsciiCase (trim c) (trim need))) = true ↔
      HasCapabilities input peer := by
    cases h : input.requiredCapabilities with
    | nil => simp [HasCapabilities, h]
    | cons need needs => simp [HasCapabilities, h, eqIgnoreAsciiCase_iff]
  have hback : (∀ need ∈ given input.requiredBackend, (peer.runtimeBackend.any fun b =>
        trim b ≠ [] && toLowercase (trim b) = toLowercase need) = true) ↔
      HasBackend toLowercase input peer :=
    forall₂_congr fun need _ => (@any_given _ fun b => toLowercase b = toLowercase need).trans
      (exists_congr fun b => and_congr_right fun _ => decide_eq_true_iff)
  constructor
  · rintro ⟨h1, h2, h3, h4, h5, h6⟩
    exact ⟨h1, htags.mp h2, h3, htier.mp h4, hcaps.mp h5, hback.mp h6⟩
  · intro h
    exact ⟨h.role, htags.mpr h.tags, h.profession, htier.mpr h.tier, hcaps.mpr h.capabilities,
      hback.mpr h.backend⟩

theorem scorePeer_id {input : MatchInput} {peer : PeerCandidate} {s : Scored}
    (h : scorePeer toLowercase load input peer = some s) : s.id = peer.id := by
  unfold scorePeer at h
  simp only [Option.ite_none_left_eq_some, Option.some.injEq] at h
  obtain ⟨-, -, -, -, -, -, rfl⟩ := h
  rfl

theorem mem_rankPeers {input : MatchInput} {peers : List PeerCandidate} {id : Text} :
    id ∈ (rankPeers toLowercase load input peers).map Prod.fst ↔
      ∃ peer ∈ peers, peer.id = id ∧ Fits toLowercase input peer := by
  simp only [rankPeers, List.map_map, List.mem_map, List.mem_mergeSort, List.mem_filterMap,
    Function.comp_apply]
  constructor
  · rintro ⟨s, ⟨peer, hpeer, hs⟩, rfl⟩
    refine ⟨peer, hpeer, (scorePeer_id toLowercase load hs).symm, ?_⟩
    rw [← scorePeer_isSome_iff toLowercase load, hs]
    rfl
  · rintro ⟨peer, hpeer, rfl, hfits⟩
    obtain ⟨s, hs⟩ := Option.isSome_iff_exists.mp
      ((scorePeer_isSome_iff toLowercase load).mpr hfits)
    exact ⟨s, ⟨peer, hpeer, hs⟩, scorePeer_id toLowercase load hs⟩

theorem pickPeer_fits {input : MatchInput} {peers : List PeerCandidate} {id : Text}
    (h : pickPeer toLowercase load input peers = some id) :
    ∃ peer ∈ peers, peer.id = id ∧ Fits toLowercase input peer := by
  obtain ⟨e, he, rfl⟩ := Option.map_eq_some_iff.mp h
  exact (mem_rankPeers toLowercase load).mp (List.mem_map_of_mem (List.mem_of_mem_head? he))

theorem pickPeer_isSome_iff {input : MatchInput} {peers : List PeerCandidate} :
    (pickPeer toLowercase load input peers).isSome ↔
      ∃ peer ∈ peers, Fits toLowercase input peer := by
  constructor
  · intro h
    obtain ⟨id, hid⟩ := Option.isSome_iff_exists.mp h
    obtain ⟨peer, hpeer, -, hfits⟩ := pickPeer_fits toLowercase load hid
    exact ⟨peer, hpeer, hfits⟩
  · rintro ⟨peer, hpeer, hfits⟩
    have hmem := (mem_rankPeers toLowercase load).mpr ⟨peer, hpeer, rfl, hfits⟩
    obtain ⟨e, he, -⟩ := List.mem_map.mp hmem
    rw [pickPeer, Option.isSome_map, List.isSome_head?]
    exact List.ne_nil_of_mem he

/-! The order of the peers does not matter. -/

theorem before_iff {a b : Scored} : before a b = true ↔
    b.score < a.score ∨ a.score = b.score ∧
      (a.load < b.load ∨ a.load = b.load ∧ a.id ≤ b.id) := by
  simp [before]

theorem rankPeers_perm {input : MatchInput} {peers peers' : List PeerCandidate}
    (h : peers.Perm peers') :
    rankPeers toLowercase load input peers = rankPeers toLowercase load input peers' := by
  have htrans : ∀ a b c, before a b = true → before b c = true → before a c = true := by
    intro a b c hab hbc
    rw [before_iff] at hab hbc ⊢
    obtain hs | ⟨hs, hl | ⟨hl, hi⟩⟩ := hab
    · exact .inl (by omega)
    · obtain ht | ⟨ht, hm | ⟨hm, hj⟩⟩ := hbc
      · exact .inl (by omega)
      · exact .inr ⟨by omega, .inl (by omega)⟩
      · exact .inr ⟨by omega, .inl (by omega)⟩
    · obtain ht | ⟨ht, hm | ⟨hm, hj⟩⟩ := hbc
      · exact .inl (by omega)
      · exact .inr ⟨by omega, .inl (by omega)⟩
      · exact .inr ⟨by omega, .inr ⟨by omega, le_trans hi hj⟩⟩
  have htotal : ∀ a b, (before a b || before b a) = true := by
    intro a b
    rw [Bool.or_eq_true, before_iff, before_iff]
    obtain hs | hs | hs := Nat.lt_trichotomy a.score b.score
    · exact .inr (.inl hs)
    · obtain hl | hl | hl := Nat.lt_trichotomy a.load b.load
      · exact .inl (.inr ⟨hs, .inl hl⟩)
      · exact (le_total a.id b.id).imp (fun hi => .inr ⟨hs, .inr ⟨hl, hi⟩⟩)
          fun hi => .inr ⟨hs.symm, .inr ⟨hl.symm, hi⟩⟩
      · exact .inr (.inr ⟨hs.symm, .inl hl⟩)
    · exact .inl (.inl hs)
  have hantisymm : ∀ a b, before a b = true → before b a = true → a = b := by
    intro a b hab hba
    rw [before_iff] at hab hba
    obtain hs | ⟨hs, hl | ⟨hl, hi⟩⟩ := hab
    · omega
    · omega
    · obtain ht | ⟨-, hm | ⟨-, hj⟩⟩ := hba
      · omega
      · omega
      · cases a
        cases b
        exact Scored.mk.injEq _ _ _ _ _ _ ▸ ⟨le_antisymm hi hj, hs, hl⟩
  rw [rankPeers, rankPeers, mergeSort_eq_of_perm htrans htotal hantisymm (h.filterMap _)]

theorem pickRelaxed_perm {base : MatchInput} {peers peers' : List PeerCandidate}
    {depth : RelaxDepth} (h : peers.Perm peers') :
    pickRelaxed toLowercase load base peers depth =
      pickRelaxed toLowercase load base peers' depth := by
  simp only [pickRelaxed, pickPeer, rankPeers_perm toLowercase load h]

/-- What no rung gives up. -/
theorem pickRelaxed_fits {base : MatchInput} {peers : List PeerCandidate} {depth : RelaxDepth}
    {id label : Text} (h : pickRelaxed toLowercase load base peers depth = some (id, label)) :
    ∃ peer ∈ peers, peer.id = id ∧ HasCapabilities base peer ∧
      HasBackend toLowercase base peer ∧ (depth = .role → HasRole toLowercase base peer) := by
  have hrung : ∀ prof tags, pickPeer toLowercase load (make base base.requiredRole prof tags)
      peers = some id → ∃ peer ∈ peers, peer.id = id ∧ HasCapabilities base peer ∧
        HasBackend toLowercase base peer ∧ (depth = .role → HasRole toLowercase base peer) := by
    intro prof tags hpick
    obtain ⟨peer, hpeer, hid, hfits⟩ := pickPeer_fits toLowercase load hpick
    exact ⟨peer, hpeer, hid, hfits.capabilities, hfits.backend, fun _ => hfits.role⟩
  simp only [pickRelaxed] at h
  split at h
  · rename_i id' hpick
    obtain ⟨rfl, -⟩ := Prod.mk.inj (Option.some.inj h)
    exact hrung _ _ hpick
  · split at h
    · rename_i id' hpick
      obtain ⟨rfl, -⟩ := Prod.mk.inj (Option.some.inj h)
      split at hpick
      · exact hrung _ _ hpick
      · cases hpick
    · cases depth with
      | role => cases h
      | full =>
        obtain ⟨id', hpick, he⟩ := Option.map_eq_some_iff.mp h
        obtain ⟨rfl, -⟩ := Prod.mk.inj he
        obtain ⟨peer, hpeer, hid, hfits⟩ := pickPeer_fits toLowercase load hpick
        exact ⟨peer, hpeer, hid, hfits.capabilities, hfits.backend, fun hd => by cases hd⟩

/-- A peer that meets all demands meets those of the first rung. -/
theorem pickRelaxed_isSome {base : MatchInput} {peers : List PeerCandidate} {depth : RelaxDepth}
    (h : (pickPeer toLowercase load base peers).isSome) :
    (pickRelaxed toLowercase load base peers depth).isSome := by
  obtain ⟨peer, hpeer, hfits⟩ := (pickPeer_isSome_iff toLowercase load).mp h
  have hrung : Fits toLowercase
      (make base base.requiredRole (given base.requiredProfession) []) peer := by
    refine ⟨hfits.role, fun hne => absurd rfl hne, ?_, ?_, hfits.capabilities, hfits.backend⟩
    · simp only [make, given_given]
      exact hfits.profession
    · simp only [make, given_given]
      exact hfits.tier
  obtain ⟨id, hid⟩ := Option.isSome_iff_exists.mp
    ((pickPeer_isSome_iff toLowercase load).mpr ⟨peer, hpeer, hrung⟩)
  simp only [pickRelaxed, hid, Option.isSome_some]

/-- The node that the ladder picks keeps the demands that no rung gives up, and the ladder is
no stricter than the strict choice. Neither depends on the order of the peers, and the ranking
holds just the peers that meet all six conditions. -/
theorem relaxation_keeps {base : MatchInput} {peers : List PeerCandidate} {depth : RelaxDepth}
    (hids : (peers.map PeerCandidate.id).Nodup) :
    (∀ id label, pickRelaxed toLowercase load base peers depth = some (id, label) →
      ∃ peer ∈ peers, peer.id = id ∧ (∀ other ∈ peers, other.id = id → other = peer) ∧
        HasCapabilities base peer ∧ HasBackend toLowercase base peer ∧
          (depth = .role → HasRole toLowercase base peer)) ∧
    ((pickPeer toLowercase load base peers).isSome →
      (pickRelaxed toLowercase load base peers depth).isSome) ∧
    (∀ peers', peers.Perm peers' →
      rankPeers toLowercase load base peers' = rankPeers toLowercase load base peers ∧
        pickRelaxed toLowercase load base peers' depth =
          pickRelaxed toLowercase load base peers depth) ∧
    (∀ id ∈ (rankPeers toLowercase load base peers).map Prod.fst, ∃ peer ∈ peers, peer.id = id) ∧
    ∀ peer ∈ peers, peer.id ∈ (rankPeers toLowercase load base peers).map Prod.fst ↔
      Fits toLowercase base peer := by
  have hunique : ∀ peer ∈ peers, ∀ other ∈ peers, other.id = peer.id → other = peer :=
    fun peer hp other ho he => List.inj_on_of_nodup_map hids ho hp he
  refine ⟨fun id label h => ?_, pickRelaxed_isSome toLowercase load, fun peers' h => ?_,
    fun id h => ?_, fun peer hp => ?_⟩
  · obtain ⟨peer, hp, rfl, hkeeps⟩ := pickRelaxed_fits toLowercase load h
    exact ⟨peer, hp, rfl, hunique peer hp, hkeeps⟩
  · exact ⟨rankPeers_perm toLowercase load h.symm, pickRelaxed_perm toLowercase load h.symm⟩
  · obtain ⟨peer, hp, hid, -⟩ := (mem_rankPeers toLowercase load).mp h
    exact ⟨peer, hp, hid⟩
  · rw [mem_rankPeers]
    constructor
    · rintro ⟨other, ho, he, hfits⟩
      exact hunique peer hp other ho he ▸ hfits
    · exact fun hfits => ⟨peer, hp, rfl, hfits⟩

end

def vmNode : PeerCandidate :=
  ⟨"n1".toList, "worker".toList, [], ["Rust".toList], ["dev".toList], none, some "VM".toList⟩

def vmInput : MatchInput :=
  ⟨some "worker".toList, [], some "Dev".toList, ["rust".toList], some "vm".toList, []⟩

theorem relaxation_keeps_vm :
    (pickRelaxed toAsciiLowercase (fun _ => 0) vmInput [vmNode] .role).isSome := by
  have hscore : (scorePeer toAsciiLowercase (fun _ => 0) vmInput vmNode).isSome = true := by decide
  have hpick : (pickPeer toAsciiLowercase (fun _ => 0) vmInput [vmNode]).isSome :=
    (pickPeer_isSome_iff _ _).mpr ⟨vmNode, List.mem_singleton_self vmNode,
      (scorePeer_isSome_iff _ _).mp hscore⟩
  exact (relaxation_keeps toAsciiLowercase (fun _ => 0) (by simp)).2.1 hpick

end NemesisBot.PeerMatcher
